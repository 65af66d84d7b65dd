import Agiru.Http.Executor

/-! What every call of the library keeps.

A request that is queued or that a worker holds is suspended, so the library's calls come to requests that are
nobody's (`Inv.loose`), and each changes one request and what is charged for it (`Inv.put`). -/
namespace Agiru.Http
open Bytes

/-! ### What is kept -/

/-- A request that the server holds. -/
structure Served (options : HttpServerOptions) (request : Request) (exchange : Exchange) : Prop where
  body : request.input.body.length ≤ options.bodyBytes
  opened : request.input.method ≠ [] → exchange.opened = true
  whole : request.refusal = 0 → exchange.closed = false → request.input.body = exchange.delivered
  receiving : request.phase = .receiving → exchange.queued = 0
  queued : request.phase = .queued →
    exchange.queued = 1 ∧ exchange.suspended = true ∧ exchange.offers = 0 ∧ exchange.closed = false
  ready : request.phase = .ready → exchange.queued = 1 ∧ exchange.handed ≠ [] ∧ exchange.offers = 0
  admitted : exchange.queued ≠ 0 → request.refusal = 0 ∧ request.input.method ≠ [] ∧ exchange.ended = true
  unanswered : request.refusal = 0 → request.phase = .receiving → exchange.offers = 0

/-- What became of a request, also once it is complete. -/
structure Exchange.Right (exchange : Exchange) : Prop where
  queued : exchange.queued ≤ 1
  handed : exchange.handed.length ≤ exchange.queued
  whole : ∀ input ∈ exchange.handed, exchange.ended = true ∧ input.body = exchange.delivered
  offers : exchange.queued ≠ 0 → exchange.offers ≤ 1
  answers : exchange.answers.length ≤ 1

structure Slot.Good (options : HttpServerOptions) (slot : Slot) : Prop where
  served : ∀ request, slot.request = some request → Served options request slot.exchange
  right : slot.exchange.Right

/-- What waits in the queue, or a worker holds: a request that the library leaves alone. -/
def Slot.Held (slot : Slot) (stage : Stage) : Prop :=
  ∃ request, slot.request = some request ∧ slot.exchange.suspended = true ∧
    match stage with
    | .taken => request.phase = .queued ∧ slot.exchange.handed = []
    | .handled => request.phase = .queued ∧ slot.exchange.handed ≠ []
    | .ready => request.phase = .ready

structure Inv (options : HttpServerOptions) (s : Executor) : Prop where
  fresh : ∀ id, s.next ≤ id → s.slots id = {}
  good : ∀ id, (s.slots id).Good options
  account : s.bodyBytes = ∑ id ∈ Finset.range s.next, (s.slots id).bytes
  total : s.bodyBytes ≤ options.totalBodyBytes
  limited : s.jobs.length ≤ options.queue
  distinct : s.jobs.Nodup
  job : ∀ id ∈ s.jobs, (s.slots id).Held .taken
  held : ∀ w id stage, s.workers w = .holding id stage →
    w < options.workers ∧ id ∉ s.jobs ∧ (s.slots id).Held stage
  alone : ∀ w w' id stage stage', s.workers w = .holding id stage → s.workers w' = .holding id stage' → w = w'
  kept : ∀ id, (s.slots id).exchange.queued ≠ 0 → (s.slots id).exchange.handed ≠ [] ∨ id ∈ s.jobs ∨
    ∃ w < options.workers, s.workers w = .holding id .taken
  drained : ∀ w, s.workers w = .returned → s.accepting = false ∧ s.jobs = []

/-! ### One request -/

section
variable {options : HttpServerOptions} {request : Request} {exchange : Exchange}

theorem Exchange.told_eq (exchange : Exchange) (call : Call) : ∃ ended,
    exchange.told call = {exchange with opened := true, ended := ended} ∧ (exchange.ended = true → ended = true) ∧
      (exchange.opened = true → call.upload = [] → ended = true) := by
  unfold told
  split
  · next hopened => exact ⟨_, by rw [← hopened], by simp +contextual, by simp +contextual⟩
  · next hopened => exact ⟨exchange.ended, rfl, id, fun h => absurd h hopened⟩

theorem Exchange.Right.told (h : exchange.Right) (call : Call) : (exchange.told call).Right := by
  obtain ⟨ended, heq, hended, -⟩ := exchange.told_eq call
  rw [heq]
  exact ⟨h.queued, h.handed, fun input hinput => (h.whole input hinput).imp_left hended, h.offers, h.answers⟩

theorem Exchange.Right.unhanded (h : exchange.Right) (hqueued : exchange.queued = 0) : exchange.handed = [] := by
  have hlength := h.handed
  rw [hqueued] at hlength
  exact List.length_eq_zero_iff.mp (Nat.le_zero.mp hlength)

/-- A piece comes to a request that was not queued. -/
theorem Exchange.Right.took (h : exchange.Right) (hqueued : exchange.queued = 0) (bytes : Bytes) :
    (exchange.took bytes).Right := by
  have hnone := h.unhanded hqueued
  refine ⟨h.queued, h.handed, fun input hinput => ?_, h.offers, h.answers⟩
  rw [Exchange.took, hnone] at hinput
  cases hinput

theorem Exchange.Right.close (h : exchange.Right) : exchange.close.Right :=
  ⟨h.queued, h.handed, h.whole, h.offers, h.answers⟩

theorem Exchange.Right.offer (h : exchange.Right) (hoffers : exchange.queued ≠ 0 → exchange.offers = 0)
    (response : ServerHttpResponse) (takes : Bool) : (exchange.offer response takes).Right := by
  have hone : exchange.queued ≠ 0 → exchange.offers + 1 ≤ 1 := fun hqueued => by rw [hoffers hqueued]
  unfold Exchange.offer
  split
  · exact ⟨h.queued, h.handed, h.whole, hone, Nat.le_refl 1⟩
  · exact ⟨h.queued, h.handed, h.whole, hone, h.answers⟩

theorem Exchange.offer_keeps (exchange : Exchange) (response : ServerHttpResponse) (takes : Bool) :
    (exchange.offer response takes).queued = exchange.queued ∧
      (exchange.offer response takes).handed = exchange.handed ∧
      (exchange.offer response takes).opened = exchange.opened ∧
      (exchange.offer response takes).ended = exchange.ended ∧
      (exchange.offer response takes).delivered = exchange.delivered ∧
      ((exchange.offer response takes).closed = false → exchange.closed = false) := by
  unfold offer
  split
  · exact ⟨rfl, rfl, rfl, rfl, rfl, id⟩
  · exact ⟨rfl, rfl, rfl, rfl, rfl, (fun h => by cases h)⟩

theorem Served.told (h : Served options request exchange) (call : Call) :
    Served options request (exchange.told call) := by
  obtain ⟨ended, heq, hended, -⟩ := exchange.told_eq call
  rw [heq]
  exact ⟨h.body, fun _ => rfl, h.whole, h.receiving, h.queued, h.ready,
    fun hqueued => (h.admitted hqueued).imp_right (And.imp_right hended), h.unanswered⟩

/-- A request that was refused has not been queued. -/
theorem Served.unqueued (h : Served options request exchange) (hrefused : request.refusal ≠ 0) :
    exchange.queued = 0 := by
  by_contra hqueued
  exact hrefused (h.admitted hqueued).1

/-- A request of a connection that is closed, which was not suspended. -/
theorem Served.close (h : Served options request exchange) (hawake : exchange.suspended = false) :
    Served options request exchange.close := by
  refine ⟨h.body, h.opened, (fun _ h => by cases h), h.receiving, fun hphase => ?_, h.ready, h.admitted, h.unanswered⟩
  exact absurd ((h.queued hphase).2.1.symm.trans hawake) Bool.noConfusion

theorem Served.output (h : Served options request exchange) (output : ServerHttpResponse) :
    Served options {request with output} exchange :=
  ⟨h.body, h.opened, h.whole, h.receiving, h.queued, h.ready, h.admitted, h.unanswered⟩

theorem Served.sent (h : Served options request exchange) (output : ServerHttpResponse) (takes : Bool) :
    Served options {request with output, phase := .sent} (exchange.offer output takes) := by
  obtain ⟨hqueued, -, hopened, hended, hdelivered, hclosed⟩ := exchange.offer_keeps output takes
  refine ⟨h.body, fun hmethod => hopened.trans (h.opened hmethod),
    fun hrefusal hopen => (h.whole hrefusal (hclosed hopen)).trans hdelivered.symm, (fun h => by cases h),
    (fun h => by cases h), (fun h => by cases h), fun hne => ?_, (fun _ h => by cases h)⟩
  rw [hended]
  exact h.admitted (hqueued ▸ hne)

/-- A refused request takes whatever comes. -/
theorem Served.took (h : Served options request exchange) (hrefused : request.refusal ≠ 0) (bytes : Bytes) :
    Served options request (exchange.took bytes) :=
  ⟨h.body, h.opened, fun hrefusal => absurd hrefusal hrefused, h.receiving, h.queued, h.ready, h.admitted, h.unanswered⟩

theorem Served.headers (h : Served options request exchange) (hmethod : request.input.method = [])
    (hopened : exchange.opened = true) (method : Bytes) (shown : List Shown) :
    Served options (readHeaders {request with input := {request.input with method} } shown) exchange := by
  obtain ⟨hbody, hphase, hrefusal⟩ := readHeaders_keeps {request with input := {request.input with method} } shown
  have hqueued : exchange.queued = 0 := by
    by_contra hqueued
    exact (h.admitted hqueued).2.1 hmethod
  refine ⟨hbody.symm ▸ h.body, fun _ => hopened, fun h0 hopen => hbody.trans (h.whole (hrefusal h0) hopen),
    fun _ => hqueued, fun hphased => h.queued (hphase.symm.trans hphased),
    fun hphased => h.ready (hphase.symm.trans hphased), fun hne => absurd hqueued hne,
    fun h0 hphased => h.unanswered (hrefusal h0) (hphase.symm.trans hphased)⟩

/-- A piece that is stored. -/
theorem Served.stored (h : Served options request exchange) {bytes : Bytes}
    (hlength : (request.input.body ++ bytes).length ≤ options.bodyBytes) :
    Served options {request with input := {request.input with body := request.input.body ++ bytes} }
      (exchange.took bytes) :=
  ⟨hlength, h.opened, fun hrefusal hopen => congrArg (· ++ bytes) (h.whole hrefusal hopen), h.receiving, h.queued,
    h.ready, h.admitted, h.unanswered⟩

/-- A piece that is refused, of a request that was not queued. -/
theorem Served.refused (h : Served options request exchange) (hqueued : exchange.queued = 0) (bytes : Bytes) :
    Served options {request with refusal := 413} (exchange.took bytes) :=
  ⟨h.body, h.opened, (fun h => by cases h), h.receiving, h.queued, h.ready, fun hne => absurd hqueued hne,
      (fun h => by cases h)⟩

/-- A piece at which memory runs out. -/
theorem Served.raised (h : Served options request exchange) (hawake : exchange.suspended = false) (bytes : Bytes) :
    Served options request (exchange.took bytes).close := by
  refine ⟨h.body, h.opened, (fun _ h => by cases h), h.receiving, fun hphase => ?_, h.ready, h.admitted, h.unanswered⟩
  exact absurd ((h.queued hphase).2.1.symm.trans hawake) Bool.noConfusion

/-- A request that is queued when its body has ended. -/
theorem Served.enqueued (h : Served options request exchange) (hmethod : request.input.method ≠ [])
    (hrefusal : request.refusal = 0) (hphase : request.phase = .receiving) (hended : exchange.ended = true)
    (hopen : exchange.closed = false) :
    Served options {request with phase := .queued}
      {exchange with suspended := true, queued := exchange.queued + 1} := by
  have hqueued := h.receiving hphase
  refine ⟨h.body, h.opened, h.whole, (fun h => by cases h), fun _ =>
      ⟨?_, rfl, h.unanswered hrefusal hphase, hopen⟩, (fun h => by cases h),
    fun _ => ⟨hrefusal, hmethod, hended⟩, (fun _ h => by cases h)⟩
  rw [hqueued]

end

section
variable {options : HttpServerOptions} {s : Executor} {id : Nat} {slot : Slot}

/-- A request that the library has not suspended is nobody's. -/
theorem Inv.loose (h : Inv options s) (hawake : (s.slots id).exchange.suspended = false) :
    id ∉ s.jobs ∧ ∀ w stage, s.workers w ≠ .holding id stage := by
  have hheld : ∀ stage, ¬ (s.slots id).Held stage := by
    rintro stage ⟨_, _, hsuspended, _⟩
    exact absurd (hsuspended.symm.trans hawake) Bool.noConfusion
  exact ⟨fun hmem => hheld _ (h.job id hmem), fun w stage hholding => hheld _ (h.held w id stage hholding).2.2⟩

/-- Such a request was handed to the handler if it was queued. -/
theorem Inv.settled (h : Inv options s) (hawake : (s.slots id).exchange.suspended = false)
    (hqueued : (s.slots id).exchange.queued ≠ 0) : (s.slots id).exchange.handed ≠ [] := by
  obtain ⟨hjobs, hworkers⟩ := h.loose hawake
  rcases h.kept id hqueued with hhanded | hmem | ⟨w, -, hholding⟩
  · exact hhanded
  · exact absurd hmem hjobs
  · exact absurd hholding (hworkers w _)

theorem Inv.begun (h : Inv options s) {request : Request} (hrequest : (s.slots id).request = some request) :
    id < s.next := by
  by_contra hfresh
  rw [h.fresh id (Nat.le_of_not_lt hfresh)] at hrequest
  cases hrequest

/-- One summand, out of all. -/
theorem sum_update {α : Type} (f : α → Nat) {next : Nat} (hid : id < next) (g : Nat → α) (new : α) :
    ∑ other ∈ Finset.range next, f (Function.update g id new other) + f (g id) =
      ∑ other ∈ Finset.range next, f (g other) + f new := by
  have hmem : id ∈ Finset.range next := Finset.mem_range.mpr hid
  have hnew := Finset.sum_erase_add (Finset.range next) (fun other => f (Function.update g id new other)) hmem
  have hold := Finset.sum_erase_add (Finset.range next) (fun other => f (g other)) hmem
  have hrest : ∑ other ∈ (Finset.range next).erase id, f (Function.update g id new other) =
      ∑ other ∈ (Finset.range next).erase id, f (g other) :=
    Finset.sum_congr rfl fun other hother => by rw [Function.update_of_ne (Finset.ne_of_mem_erase hother)]
  simp only [Function.update_self] at hnew
  omega

theorem Inv.charged (h : Inv options s) (hid : id < s.next) : (s.slots id).bytes ≤ s.bodyBytes := by
  have hsum := sum_update Slot.bytes hid s.slots {}
  have hnone : Slot.bytes {} = 0 := rfl
  rw [h.account]
  omega

/-- What changes is one request, with what is charged for it, and who has it. -/
theorem Inv.change (h : Inv options s) (hid : id < s.next) (hgood : slot.Good options) {bodyBytes : Nat}
    (hcharged : bodyBytes + (s.slots id).bytes = s.bodyBytes + slot.bytes)
    (htotal : bodyBytes ≤ options.totalBodyBytes) {jobs : List Nat} (hlimited : jobs.length ≤ options.queue)
    (hdistinct : jobs.Nodup) (hjob : id ∈ jobs → slot.Held .taken)
    (hjobs : ∀ other, other ≠ id → (other ∈ jobs ↔ other ∈ s.jobs)) {workers : Nat → Worker}
    (hheld : ∀ w stage, workers w = .holding id stage → w < options.workers ∧ id ∉ jobs ∧ slot.Held stage)
    (halone : ∀ w w' stage stage', workers w = .holding id stage → workers w' = .holding id stage' → w = w')
    (hworkers : ∀ w other stage, other ≠ id → (workers w = .holding other stage ↔ s.workers w = .holding other stage))
    (hkept : slot.exchange.queued ≠ 0 → slot.exchange.handed ≠ [] ∨ id ∈ jobs ∨
      ∃ w < options.workers, workers w = .holding id .taken)
    (hdrained : ∀ w, workers w = .returned → s.accepting = false ∧ jobs = []) :
    Inv options {s with bodyBytes, jobs, workers, slots := Function.update s.slots id slot} := by
  have hother : ∀ {other}, other ≠ id → Function.update s.slots id slot other = s.slots other :=
    fun hne => Function.update_of_ne hne _ _
  have hself : Function.update s.slots id slot id = slot := Function.update_self ..
  constructor
  case fresh =>
    intro other hfresh
    have hne : other ≠ id := Nat.ne_of_gt (Nat.lt_of_lt_of_le hid hfresh)
    exact (hother hne).trans (h.fresh other hfresh)
  case good =>
    intro other
    by_cases hne : other = id
    · subst hne
      change (Function.update s.slots other slot other).Good options
      rw [hself]
      exact hgood
    · change (Function.update s.slots id slot other).Good options
      rw [hother hne]
      exact h.good other
  case account =>
    have hsum := sum_update Slot.bytes hid s.slots slot
    have haccount := h.account
    change bodyBytes = ∑ other ∈ Finset.range s.next, (Function.update s.slots id slot other).bytes
    omega
  case total => exact htotal
  case limited => exact hlimited
  case distinct => exact hdistinct
  case job =>
    intro other hmem
    by_cases hne : other = id
    · subst hne
      change (Function.update s.slots other slot other).Held .taken
      rw [hself]
      exact hjob hmem
    · change (Function.update s.slots id slot other).Held .taken
      rw [hother hne]
      exact h.job other ((hjobs other hne).mp hmem)
  case held =>
    intro w other stage hholding
    by_cases hne : other = id
    · subst hne
      change _ ∧ _ ∧ (Function.update s.slots other slot other).Held stage
      rw [hself]
      exact hheld w stage hholding
    · change _ ∧ other ∉ jobs ∧ (Function.update s.slots id slot other).Held stage
      rw [hother hne, hjobs other hne]
      exact h.held w other stage ((hworkers w other stage hne).mp hholding)
  case alone =>
    intro w w' other stage stage' hholding hholding'
    by_cases hne : other = id
    · subst hne
      exact halone w w' stage stage' hholding hholding'
    · exact h.alone w w' other stage stage' ((hworkers w other stage hne).mp hholding)
        ((hworkers w' other stage' hne).mp hholding')
  case kept =>
    intro other hqueued
    change (Function.update s.slots id slot other).exchange.queued ≠ 0 at hqueued
    change (Function.update s.slots id slot other).exchange.handed ≠ [] ∨ other ∈ jobs ∨
      ∃ w < options.workers, workers w = .holding other .taken
    by_cases hne : other = id
    · subst hne
      rw [hself] at hqueued ⊢
      exact hkept hqueued
    · rw [hother hne] at hqueued ⊢
      rw [hjobs other hne]
      refine (h.kept other hqueued).imp_right (Or.imp_right ?_)
      rintro ⟨w, hw, hholding⟩
      exact ⟨w, hw, (hworkers w other _ hne).mpr hholding⟩
  case drained => exact hdrained

/-- A call of the library changes a request that is nobody's. -/
theorem Inv.put (h : Inv options s) (hid : id < s.next) (hawake : (s.slots id).exchange.suspended = false)
    (hgood : slot.Good options) {bodyBytes : Nat}
    (hcharged : bodyBytes + (s.slots id).bytes = s.bodyBytes + slot.bytes)
    (htotal : bodyBytes ≤ options.totalBodyBytes)
    (hqueued : slot.exchange.queued ≠ 0 → slot.exchange.handed ≠ []) :
    Inv options {s.put id slot with bodyBytes} := by
  obtain ⟨hjobs, hworkers⟩ := h.loose hawake
  exact h.change hid hgood hcharged htotal h.limited h.distinct (fun hmem => absurd hmem hjobs) (fun _ _ => Iff.rfl)
    (fun w stage hholding => absurd hholding (hworkers w stage))
    (fun w _ stage _ hholding => absurd hholding (hworkers w stage)) (fun _ _ _ _ => Iff.rfl)
    (fun hne => .inl (hqueued hne)) h.drained

/-! ### The library's calls -/

theorem begun_good (options : HttpServerOptions) (target : Bytes) (failed : Bool) :
    Slot.Good options {request := if failed then none else some (begun target)} := by
  refine ⟨fun request hrequest => ?_, Nat.zero_le _, Nat.le_refl _, (fun _ h => by cases h),
      (fun h => absurd rfl h), Nat.zero_le _⟩
  have hfresh : begun target = request := by
    cases failed
    · exact Option.some.inj hrequest
    · cases hrequest
  subst hfresh
  unfold begun
  split
  · exact ⟨Nat.zero_le _, absurd rfl, fun _ _ => rfl, fun _ => rfl, (fun h => by cases h),
      (fun h => by cases h), absurd rfl, fun _ _ => rfl⟩
  · exact ⟨Nat.zero_le _, absurd rfl, fun _ _ => rfl, fun _ => rfl, (fun h => by cases h),
      (fun h => by cases h), absurd rfl, fun _ _ => rfl⟩

theorem begun_bytes (target : Bytes) (failed : Bool) :
    Slot.bytes {request := if failed then none else some (begun target)} = 0 := by
  cases failed
  · change (begun target).input.body.length = 0
    unfold begun
    split <;> rfl
  · rfl

theorem Inv.begin (h : Inv options s) (target : Bytes) (failed : Bool) : Inv options (s.begin target failed) := by
  have hnew := h.fresh s.next (Nat.le_refl _)
  have hawake : (s.slots s.next).exchange.suspended = false := by rw [hnew]
  have hgrown : Inv options {s with next := s.next + 1} := by
    refine ⟨fun id hid => h.fresh id (Nat.le_of_succ_le hid), h.good, ?_, h.total, h.limited, h.distinct, h.job, h.held,
      h.alone, h.kept, h.drained⟩
    change s.bodyBytes = ∑ id ∈ Finset.range (s.next + 1), _
    rw [Finset.sum_range_succ, hnew, h.account]
    rfl
  refine hgrown.put (Nat.lt_succ_self _) hawake (begun_good options target failed) ?_ h.total fun hqueued => ?_
  · rw [begun_bytes, hnew]
    rfl
  · exact absurd rfl hqueued

/-- The destructor of a request gives back what was charged for it. -/
theorem Inv.complete_bytes (h : Inv options s) (hid : id < s.next) :
    (s.complete id).bodyBytes = s.bodyBytes - (s.slots id).bytes := by
  have hle := h.charged hid
  unfold Executor.complete Slot.bytes at *
  cases hrequest : (s.slots id).request with
  | none => rfl
  | some request =>
    rw [hrequest] at hle
    exact minus_eq hle

theorem Inv.complete (h : Inv options s) (hid : id < s.next)
    (hawake : (s.slots id).exchange.suspended = false) : Inv options (s.complete id) := by
  have hright := (h.good id).right
  have hgood : Slot.Good options ⟨none, {(s.slots id).exchange with completed := true}⟩ :=
    ⟨(fun _ h => by cases h), hright.queued, hright.handed, hright.whole, hright.offers, hright.answers⟩
  have hle := h.charged hid
  have htotal := h.total
  have hbytes := h.complete_bytes hid
  refine h.put hid hawake hgood ?_ ?_ (h.settled hawake)
  · change (s.complete id).bodyBytes + _ = _ + 0
    omega
  · change (s.complete id).bodyBytes ≤ _
    omega

/-! ### `Access` -/

section
variable {request new : Request} {exchange : Exchange}

theorem Served.good (hserved : Served options request exchange) (hright : exchange.Right) :
    Slot.Good options ⟨some request, exchange⟩ :=
  ⟨fun _ hsome => Option.some.inj hsome ▸ hserved, hright⟩

theorem Exchange.Right.gone (hright : exchange.Right) : Slot.Good options ⟨none, exchange⟩ :=
    ⟨(fun _ h => by cases h), hright⟩

/-- What `Access` makes of a request, with no byte more to be charged. -/
theorem Inv.keep (h : Inv options s) (hawake : (s.slots id).exchange.suspended = false)
    (hrequest : (s.slots id).request = some request) (hbody : new.input.body.length = request.input.body.length)
    (hserved : Served options new exchange) (hright : exchange.Right)
    (hqueued : exchange.queued ≠ 0 → exchange.handed ≠ []) : Inv options (s.put id ⟨some new, exchange⟩) := by
  refine h.put (h.begun hrequest) hawake (hserved.good hright) ?_ h.total hqueued
  rw [Slot.bytes, hrequest]
  exact congrArg (s.bodyBytes + ·) hbody.symm

theorem Inv.send (h : Inv options s) (hawake : (s.slots id).exchange.suspended = false)
    (hrequest : (s.slots id).request = some request) (hbody : new.input.body = request.input.body)
    (hserved : Served options new exchange) (hright : exchange.Right) (hsuspended : exchange.suspended = false)
    (hqueued : exchange.queued ≠ 0 → exchange.handed ≠ []) (hoffers : exchange.queued ≠ 0 → exchange.offers = 0)
    (call : Call) : Inv options (s.send options id new exchange call) := by
  have hlength := congrArg List.length hbody
  unfold Executor.send
  dsimp only
  split
  · obtain ⟨hsame, hhanded, -⟩ := exchange.offer_keeps (sentFor options new.output) call.takes
    refine h.keep hawake hrequest hlength (hserved.sent _ _) (hright.offer hoffers _ _) ?_
    rw [hsame, hhanded]
    exact hqueued
  · exact h.keep hawake hrequest hlength ((hserved.output _).close hsuspended) hright.close hqueued

/-- A piece comes to a request that was not queued. -/
theorem Inv.piece (h : Inv options s)
    (hawake : (s.slots id).exchange.suspended = false) (hrequest : (s.slots id).request = some request)
    (hserved : Served options request exchange) (hright : exchange.Right) (hsuspended : exchange.suspended = false)
    (hqueued : exchange.queued = 0) (call : Call) :
    Inv options (s.takePiece options id request exchange call) := by
  have htook := hright.took hqueued call.upload
  have hunqueued : exchange.queued ≠ 0 → exchange.handed ≠ [] := fun hne => absurd hqueued hne
  have hbytes : (s.slots id).bytes = request.input.body.length := by rw [Slot.bytes, hrequest]; rfl
  unfold Executor.takePiece
  rcases append_spec hserved.body h.total call.upload call.failed with
    heq | heq | ⟨heq, hlength, htotal⟩ <;> rw [heq]
  · exact h.keep hawake hrequest rfl (hserved.refused hqueued _) htook hunqueued
  · exact h.keep hawake hrequest rfl (hserved.raised hsuspended _) htook.close hunqueued
  · refine h.put (h.begun hrequest) hawake ((hserved.stored hlength).good htook) ?_ htotal hunqueued
    change _ + _ = _ + (request.input.body ++ call.upload).length
    rw [hbytes, List.length_append]
    omega

/-- The request is put in the queue. -/
theorem Inv.enqueue (h : Inv options s) (hawake : (s.slots id).exchange.suspended = false)
    (hrequest : (s.slots id).request = some request) (hserved : Served options request exchange)
    (hright : exchange.Right) (hmethod : request.input.method ≠ []) (hrefusal : request.refusal = 0)
    (hphase : request.phase = .receiving) (hended : exchange.ended = true) (hopen : exchange.closed = false)
    (haccepting : s.accepting = true) (hroom : s.jobs.length < options.queue) :
    Inv options {s.put id ⟨some {request with phase := .queued},
      {exchange with suspended := true, queued := exchange.queued + 1}⟩ with jobs := s.jobs ++ [id]} := by
  obtain ⟨hjobs, hworkers⟩ := h.loose hawake
  have hunqueued := hserved.receiving hphase
  have hnone := hright.unhanded hunqueued
  have henqueued : Exchange.Right {exchange with suspended := true, queued := exchange.queued + 1} := by
    refine ⟨?_, ?_, hright.whole, fun _ => ?_, hright.answers⟩
    · rw [hunqueued]
    · rw [hnone]
      exact Nat.zero_le _
    · rw [hserved.unanswered hrefusal hphase]
      exact Nat.zero_le 1
  refine h.change (h.begun hrequest)
    ((hserved.enqueued hmethod hrefusal hphase hended hopen).good henqueued) ?_ h.total ?_ ?_ (fun _ => ?_)
    (fun other hne => ?_) (fun w stage hholding => absurd hholding (hworkers w stage))
    (fun w _ stage _ hholding => absurd hholding (hworkers w stage)) (fun _ _ _ _ => Iff.rfl)
    (fun _ => .inr (.inl ?_)) (fun w hreturned => ?_)
  · rw [Slot.bytes, hrequest]
    rfl
  · rw [List.length_append]
    exact hroom
  · exact List.nodup_append'.mpr ⟨h.distinct, List.nodup_singleton id, List.disjoint_singleton.mpr hjobs⟩
  · exact ⟨_, rfl, rfl, rfl, hnone⟩
  · simp [hne]
  · exact List.mem_append_right _ List.mem_cons_self
  · exact absurd ((h.drained w hreturned).1.symm.trans haccepting) Bool.noConfusion

/-- The end of the body: the response is sent, or the request queued or turned away. -/
theorem Inv.ended (h : Inv options s) (hawake : (s.slots id).exchange.suspended = false)
    (hrequest : (s.slots id).request = some request) (hserved : Served options request exchange)
    (hright : exchange.Right) (hsuspended : exchange.suspended = false) (hmethod : request.input.method ≠ [])
    (hrefusal : request.refusal = 0) (hended : exchange.ended = true) (hopen : exchange.closed = false)
    (hqueued : exchange.queued ≠ 0 → exchange.handed ≠ []) (call : Call) :
    Inv options (s.endBody options id request exchange call) := by
  unfold Executor.endBody
  have hkeep : Inv options (s.put id ⟨some request, exchange⟩) := h.keep hawake hrequest rfl hserved hright hqueued
  split
  · next hphase =>
    exact h.send hawake hrequest rfl hserved hright hsuspended hqueued (fun _ => (hserved.ready hphase).2.2) call
  · exact hkeep
  · exact hkeep
  · next hphase =>
    have hnew : exchange.queued ≠ 0 → exchange.offers = 0 := fun hne => absurd (hserved.receiving hphase) hne
    split
    · exact h.send hawake hrequest (by rfl) (hserved.output (refusal 503 (ascii "HttpExecutorBusy"))) hright hsuspended
        hqueued hnew call
    · next hroom =>
      simp only [Bool.or_eq_true, Bool.not_eq_true', decide_eq_true_eq, not_or, Bool.not_eq_false, Nat.not_le] at hroom
      split
      · exact h.keep hawake hrequest rfl (hserved.close hsuspended) hright.close hqueued
      · exact h.enqueue hawake hrequest hserved hright hmethod hrefusal hphase hended hopen hroom.1 hroom.2

theorem Inv.access (h : Inv options s) (hid : id < s.next) {call : Call}
    (hopen : (s.slots id).exchange.closed = false) (hawake : (s.slots id).exchange.suspended = false)
    (hpiece : call.upload ≠ [] → (s.slots id).exchange.opened = true ∧ (s.slots id).exchange.ended = false) :
    Inv options (s.access options id call) := by
  have hright := (h.good id).right.told call
  obtain ⟨ended, htold, -, hended⟩ := (s.slots id).exchange.told_eq call
  generalize hexchange : (s.slots id).exchange.told call = exchange at hright htold
  have hsuspended : exchange.suspended = false := by rw [htold]; exact hawake
  have hkept : exchange.closed = false := by rw [htold]; exact hopen
  have hqueued : exchange.queued ≠ 0 → exchange.handed ≠ [] := by
    rw [htold]
    exact h.settled hawake
  unfold Executor.access
  rw [hexchange]
  dsimp only
  split
  · next hnone =>
    refine h.put hid hawake hright.close.gone ?_ h.total hqueued
    rw [Slot.bytes, hnone]
    rfl
  · next request hrequest =>
    have hbefore := (h.good id).served request hrequest
    have hserved : Served options request exchange := hexchange ▸ hbefore.told call
    have hopened : exchange.opened = true := by rw [htold]
    split
    · next hmethod =>
      split
      · exact h.keep hawake hrequest rfl (hserved.close hsuspended) hright.close hqueued
      · refine h.keep hawake hrequest ?_ (hserved.headers hmethod hopened _ _) hright hqueued
        rw [(readHeaders_keeps _ call.headers).1]
    · next hmethod =>
      split
      · next hrefusal =>
        have hunqueued := hserved.unqueued hrefusal
        exact h.send hawake hrequest (by rfl)
          ((hserved.took hrefusal call.upload).output (refusal request.refusal (ascii "HttpRequestRefused")))
          (hright.took hunqueued call.upload) hsuspended (fun hne => absurd hunqueued hne)
          (fun hne => absurd hunqueued hne) call
      · next hrefusal =>
        split
        · next hupload =>
          have hunqueued : exchange.queued = 0 := by
            by_contra hne
            rw [htold] at hne
            exact Bool.false_ne_true ((hpiece hupload).2.symm.trans (hbefore.admitted hne).2.2)
          exact h.piece hawake hrequest hserved hright hsuspended hunqueued call
        · next hupload =>
          have hend : exchange.ended = true := by
            rw [htold]
            exact hended (hbefore.opened hmethod) (not_not.mp hupload)
          exact h.ended hawake hrequest hserved hright hsuspended hmethod (not_not.mp hrefusal) hend hkept hqueued call

end

end

end Agiru.Http
