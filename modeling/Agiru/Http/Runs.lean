import Agiru.Http.Safe
import Mathlib.Algebra.Order.BigOperators.Group.Finset

/-! The executor neither loses, repeats nor overbooks requests, in every run of the library and the workers, and its
drain ends. -/
namespace Agiru.Http
open Bytes

section
variable {options : HttpServerOptions} {s : Executor} {id w : Nat} {slot : Slot} {request : Request}

/-! ### The workers -/

theorem Inv.held_begun (h : Inv options s) {stage : Stage} (hheld : (s.slots id).Held stage) : id < s.next := by
  obtain ⟨request, hrequest, -⟩ := hheld
  exact h.begun hrequest

theorem Inv.take (h : Inv options s) {rest : List Nat} (hw : w < options.workers) (hwaiting : s.workers w = .waiting)
    (hjobs : s.jobs = id :: rest) : Inv options (({s with jobs := rest} : Executor).set w (.holding id .taken)) := by
  have hmem : id ∈ s.jobs := hjobs ▸ List.mem_cons_self
  have hheld := h.job id hmem
  have hdistinct := hjobs ▸ h.distinct
  rw [List.nodup_cons] at hdistinct
  have hother : ∀ w' stage, w' ≠ w → s.workers w' ≠ .holding id stage :=
    fun w' stage _ hholding => (h.held w' id stage hholding).2.1 hmem
  have hself : ∀ w' stage, Function.update s.workers w (.holding id .taken) w' = .holding id stage → w' = w := by
    intro w' stage hholding
    by_contra hne
    rw [Function.update_of_ne hne] at hholding
    exact hother w' stage hne hholding
  have hsame : Function.update s.slots id (s.slots id) = s.slots := Function.update_eq_self ..
  have hlimited := h.limited
  rw [hjobs, List.length_cons] at hlimited
  have hinv : Inv options {s with
      bodyBytes := s.bodyBytes, jobs := rest
      workers := Function.update s.workers w (.holding id .taken)
      slots := Function.update s.slots id (s.slots id)} := by
    refine h.change (h.held_begun hheld) (h.good id) rfl h.total (Nat.le_of_succ_le hlimited) hdistinct.2
      (fun hin => absurd hin hdistinct.1) ?_ ?_ ?_ ?_ (fun _ => .inr (.inr ⟨w, hw, Function.update_self ..⟩)) ?_
    · intro other hne
      rw [hjobs, List.mem_cons, or_iff_right hne]
    · intro w' stage hholding
      obtain rfl := hself w' stage hholding
      rw [Function.update_self] at hholding
      cases hholding
      exact ⟨hw, hdistinct.1, hheld⟩
    · intro w' w'' stage stage' hholding hholding'
      rw [hself w' stage hholding, hself w'' stage' hholding']
    · intro w' other stage hne
      by_cases hw' : w' = w
      · subst hw'
        rw [Function.update_self, hwaiting]
        constructor
        · intro hholding
          cases hholding
          exact absurd rfl hne
        · intro hholding
          cases hholding
      · rw [Function.update_of_ne hw']
    · intro w' hreturned
      by_cases hw' : w' = w
      · subst hw'
        rw [Function.update_self] at hreturned
        cases hreturned
      · rw [Function.update_of_ne hw'] at hreturned
        have hempty := (h.drained w' hreturned).2
        rw [hjobs] at hempty
        cases hempty
  rw [hsame] at hinv
  exact hinv

/-- A worker does something about the request that it holds. -/
theorem Inv.work (h : Inv options s) {stage : Stage} {worker : Worker} (hholding : s.workers w = .holding id stage)
    (hgood : slot.Good options) (hbytes : slot.bytes = (s.slots id).bytes)
    (hworker : worker = .waiting ∨ ∃ stage', worker = .holding id stage' ∧ slot.Held stage')
    (hkept : slot.exchange.queued ≠ 0 → slot.exchange.handed ≠ []) :
    Inv options ((s.put id slot).set w worker) := by
  obtain ⟨hw, hunqueued, hheld⟩ := h.held w id stage hholding
  have hself : ∀ w' stage', Function.update s.workers w worker w' = .holding id stage' → w' = w := by
    intro w' stage' hholding'
    by_contra hne
    rw [Function.update_of_ne hne] at hholding'
    exact hne (h.alone w' w id stage' stage hholding' hholding)
  refine h.change (h.held_begun hheld) hgood (by rw [hbytes]) h.total h.limited h.distinct
    (fun hmem => absurd hmem hunqueued) (fun _ _ => Iff.rfl) ?_ ?_ ?_ (fun hqueued => .inl (hkept hqueued)) ?_
  · intro w' stage' hholding'
    obtain rfl := hself w' stage' hholding'
    rw [Function.update_self] at hholding'
    rcases hworker with rfl | ⟨stage'', rfl, hnew⟩
    · cases hholding'
    · cases hholding'
      exact ⟨hw, hunqueued, hnew⟩
  · intro w' w'' stage' stage'' hholding' hholding''
    rw [hself w' stage' hholding', hself w'' stage'' hholding'']
  · intro w' other stage' hne
    by_cases hw' : w' = w
    · subst hw'
      rw [Function.update_self, hholding]
      constructor
      · intro hholding'
        rcases hworker with rfl | ⟨stage'', rfl, -⟩
        · cases hholding'
        · cases hholding'
          exact absurd rfl hne
      · intro hholding'
        cases hholding'
        exact absurd rfl hne
    · rw [Function.update_of_ne hw']
      exact Iff.rfl
  · intro w' hreturned
    by_cases hw' : w' = w
    · subst hw'
      rw [Function.update_self] at hreturned
      rcases hworker with rfl | ⟨stage'', rfl, -⟩ <;> cases hreturned
    · rw [Function.update_of_ne hw'] at hreturned
      exact h.drained w' hreturned

theorem Inv.handle (h : Inv options s) (hholding : s.workers w = .holding id .taken)
    (hrequest : (s.slots id).request = some request) (result : Option ServerHttpResponse) :
    Inv options (s.handled w id request result) := by
  obtain ⟨-, -, held, hheld, hsuspended, hphase, hnone⟩ := h.held w id .taken hholding
  rw [hrequest, Option.some.injEq] at hheld
  subst hheld
  have hserved := (h.good id).served request hrequest
  have hright := (h.good id).right
  obtain ⟨hone, -, hoffers, hopen⟩ := hserved.queued hphase
  have hqueued : (s.slots id).exchange.queued ≠ 0 := by rw [hone]; exact Nat.one_ne_zero
  obtain ⟨hrefusal, hmethod, hended⟩ := hserved.admitted hqueued
  refine h.work hholding ⟨fun new hnew => ?_, hright.queued, ?_, ?_, hright.offers, hright.answers⟩ ?_
    (.inr ⟨.handled, rfl, _, rfl, hsuspended, hphase, List.cons_ne_nil _ _⟩) fun _ => List.cons_ne_nil _ _
  · rw [Option.some.injEq] at hnew
    subst hnew
    exact ⟨hserved.body, hserved.opened, hserved.whole, hserved.receiving, hserved.queued,
      fun hready => ⟨hone, List.cons_ne_nil _ _, hoffers⟩, hserved.admitted, hserved.unanswered⟩
  · rw [hnone, hone]
    exact Nat.le_refl 1
  · intro input hinput
    rw [hnone, List.mem_singleton] at hinput
    subst hinput
    exact ⟨hended, hserved.whole hrefusal hopen⟩
  · rw [Slot.bytes, Slot.bytes, hrequest]
    rfl

theorem Inv.readied (h : Inv options s) (hholding : s.workers w = .holding id .handled)
    (hrequest : (s.slots id).request = some request) :
    Inv options ((s.put id ⟨some {request with phase := .ready}, (s.slots id).exchange⟩).set w
      (.holding id .ready)) := by
  obtain ⟨-, -, held, hheld, hsuspended, hphase, hhanded⟩ := h.held w id .handled hholding
  rw [hrequest, Option.some.injEq] at hheld
  subst hheld
  have hserved := (h.good id).served request hrequest
  obtain ⟨hone, -, hoffers, -⟩ := hserved.queued hphase
  refine h.work hholding ⟨fun new hnew => ?_, (h.good id).right⟩ ?_ (.inr ⟨.ready, rfl, _, rfl, hsuspended, rfl⟩)
    fun _ => hhanded
  · rw [Option.some.injEq] at hnew
    subst hnew
    exact ⟨hserved.body, hserved.opened, hserved.whole, (fun h => by cases h), (fun h => by cases h),
      fun _ => ⟨hone, hhanded, hoffers⟩, hserved.admitted, (fun _ h => by cases h)⟩
  · rw [Slot.bytes, Slot.bytes, hrequest]
    rfl

theorem Inv.resume (h : Inv options s) (hholding : s.workers w = .holding id .ready) :
    Inv options ((s.put id ⟨(s.slots id).request, {(s.slots id).exchange with suspended := false}⟩).set w
      .waiting) := by
  obtain ⟨-, -, request, hrequest, -, hphase⟩ := h.held w id .ready hholding
  dsimp only at hphase
  have hserved := (h.good id).served request hrequest
  have hright := (h.good id).right
  refine h.work hholding ⟨fun new hnew => ?_, hright.queued, hright.handed, hright.whole, hright.offers,
    hright.answers⟩ rfl (.inl rfl) fun _ => (hserved.ready hphase).2.1
  dsimp only at hnew
  rw [hrequest, Option.some.injEq] at hnew
  subst hnew
  refine ⟨hserved.body, hserved.opened, hserved.whole, hserved.receiving, fun hqueued => ?_, hserved.ready,
    hserved.admitted, hserved.unanswered⟩
  rw [hphase] at hqueued
  cases hqueued

theorem Inv.leave (h : Inv options s) (hwaiting : s.workers w = .waiting) (hjobs : s.jobs = [])
    (hclosed : s.accepting = false) : Inv options (s.set w .returned) := by
  have hold : ∀ {w' other stage}, Function.update s.workers w .returned w' = .holding other stage →
      s.workers w' = .holding other stage := by
    intro w' other stage hholding
    by_cases hw' : w' = w
    · subst hw'
      rw [Function.update_self] at hholding
      cases hholding
    · rwa [Function.update_of_ne hw'] at hholding
  refine ⟨h.fresh, h.good, h.account, h.total, h.limited, h.distinct, h.job, fun w' other stage hholding =>
    h.held w' other stage (hold hholding), fun w' w'' other stage stage' hholding hholding' =>
    h.alone w' w'' other stage stage' (hold hholding) (hold hholding'), fun other hqueued => ?_,
        fun w' _ => ⟨hclosed, hjobs⟩⟩
  refine (h.kept other hqueued).imp_right (Or.imp_right ?_)
  rintro ⟨w', hw', hholding⟩
  refine ⟨w', hw', ?_⟩
  change Function.update s.workers w .returned w' = _
  rw [Function.update_of_ne, hholding]
  rintro rfl
  rw [hwaiting] at hholding
  cases hholding

theorem Inv.close (h : Inv options s) : Inv options {s with accepting := false} :=
  ⟨h.fresh, h.good, h.account, h.total, h.limited, h.distinct, h.job, h.held, h.alone, h.kept,
    fun w hreturned => ⟨rfl, (h.drained w hreturned).2⟩⟩

/-! ### Runs -/

theorem Inv.step {s' : Executor} (h : Inv options s) (hstep : Step options s s') : Inv options s' := by
  cases hstep with
  | begin target failed => exact h.begin target failed
  | access hbegun hopen hkept hawake hpiece => exact h.access hbegun hkept hawake hpiece
  | complete hbegun hopen hawake => exact h.complete hbegun hawake
  | take hw hwaiting hjobs => exact h.take hw hwaiting hjobs
  | handle hw hholding hrequest result => exact h.handle hholding hrequest result
  | ready hw hholding hrequest => exact h.readied hholding hrequest
  | resume hw hholding => exact h.resume hholding
  | leave hw hwaiting hjobs hclosed => exact h.leave hwaiting hjobs hclosed
  | close => exact h.close

end

theorem Reached.inv {options : HttpServerOptions} {s : Executor} (h : Reached options s) : Inv options s := by
  refine h.invariant ?_ fun s t hinv hstep => hinv.step hstep
  rintro _ ⟨-, rfl⟩
  have hright : Exchange.Right {} := ⟨Nat.zero_le _, Nat.le_refl _, by simp, fun _ => Nat.zero_le _, Nat.zero_le _⟩
  exact ⟨fun _ _ => rfl, fun _ => ⟨by simp, hright⟩, by simp [Slot.bytes], Nat.zero_le _, Nat.zero_le _,
    List.nodup_nil, by simp, by simp, by simp, by simp, by simp⟩

theorem Slot.Good.bytes {options : HttpServerOptions} {slot : Slot} (h : slot.Good options) :
    slot.bytes ≤ options.bodyBytes := by
  unfold Slot.bytes
  cases hrequest : slot.request with
  | none => exact Nat.zero_le _
  | some request => exact (h.served request hrequest).body

/-- **The executor neither loses, repeats nor overbooks requests.** Whatever the library calls and the workers do, in
any order, a request is handed to the handler at most once, only when its body has ended and with the whole of it; it
gets at most one response; the queue keeps to its limit; the bytes that are charged are those of the bodies that are
held, within both limits; and once the workers have returned, every request that was queued has been handed over. -/
theorem executor_safe {options : HttpServerOptions} {s : Executor} (h : Reached options s) :
    (∀ id, (s.slots id).exchange.handed.length ≤ 1 ∧ (s.slots id).exchange.answers.length ≤ 1 ∧
      ∀ input ∈ (s.slots id).exchange.handed,
        (s.slots id).exchange.ended = true ∧ input.body = (s.slots id).exchange.delivered) ∧
    s.jobs.length ≤ options.queue ∧
    s.bodyBytes = ∑ id ∈ Finset.range s.next, (s.slots id).bytes ∧ s.bodyBytes ≤ options.totalBodyBytes ∧
    (∀ id, (s.slots id).bytes ≤ options.bodyBytes) ∧
    ((∀ w < options.workers, s.workers w = .returned) → ∀ id, (s.slots id).exchange.queued ≠ 0 →
      (s.slots id).exchange.handed ≠ []) ∧
    ∀ w, s.workers w = .returned → s.accepting = false ∧ s.jobs = [] := by
  have hinv := h.inv
  refine ⟨fun id => ?_, hinv.limited, hinv.account, hinv.total, fun id => (hinv.good id).bytes,
    fun hreturned id hqueued => ?_, hinv.drained⟩
  · have hright := (hinv.good id).right
    exact ⟨hright.handed.trans hright.queued, hright.answers, hright.whole⟩
  · rcases hinv.kept id hqueued with hhanded | hmem | ⟨w, hw, hholding⟩
    · exact hhanded
    · -- a worker that has returned found the queue empty, and there is a worker
      obtain ⟨_, ⟨hvalid, -⟩, -⟩ := h
      have hempty := (hinv.drained 0 (hreturned 0 (HttpServerOptions.workers_pos hvalid))).2
      rw [hempty] at hmem
      cases hmem
    · rw [hreturned w hw] at hholding
      cases hholding

/-- One worker, one place in the queue. -/
def narrow : HttpServerOptions := ⟨1, 1, 1, 1, 1, 1, 128⟩

theorem executor_safe_narrow : ∃ s : Executor, s.jobs = [0] ∧ s.jobs.length ≤ 1 ∧ s.bodyBytes ≤ 1 := by
  have h : Reached narrow {} := ⟨_, ⟨by decide, rfl⟩, .refl⟩
  have h := h.step (.begin (ascii "/") false)
  have h := h.step (@Step.access narrow _ 0 {method := ascii "GET"} (by decide) rfl rfl rfl (by decide))
  have h := h.step (@Step.access narrow _ 0 {method := ascii "GET"} (by decide) rfl rfl rfl (by decide))
  obtain ⟨-, hlimited, -, htotal, -⟩ := executor_safe h
  exact ⟨_, rfl, hlimited, htotal⟩

/-! ### What becomes of a request -/

/-- The library's calls leave the workers alone. -/
theorem access_workers {options : HttpServerOptions} {s : Executor} {id : Nat} (call : Call) :
    (s.access options id call).workers = s.workers := by
  have hsend : ∀ request exchange, (s.send options id request exchange call).workers = s.workers := by
    intro request exchange
    unfold Executor.send
    split <;> rfl
  unfold Executor.access
  dsimp only
  split
  · rfl
  · split
    · split <;> rfl
    · split
      · exact hsend _ _
      · split
        · unfold Executor.takePiece
          split <;> rfl
        · unfold Executor.endBody
          split
          · exact hsend _ _
          · rfl
          · rfl
          · split
            · exact hsend _ _
            · split <;> rfl

/-- A worker that has taken a request goes on by handing it over. -/
theorem Step.hands {options : HttpServerOptions} {s t : Executor} {w id : Nat} (h : Step options s t)
    (hholding : s.workers w = .holding id .taken) : t.workers w = .holding id .taken ∨
      t.workers w = .holding id .handled ∧ (t.slots id).exchange.handed ≠ [] := by
  have hother : ∀ {w' old} (new : Worker), s.workers w' = old → old ≠ .holding id .taken →
      Function.update s.workers w' new w = .holding id .taken := by
    intro w' old new hold hne
    rw [Function.update_of_ne, hholding]
    rintro rfl
    exact hne (hold.symm.trans hholding)
  cases h with
  | begin | complete | close => exact .inl hholding
  | access => exact .inl (by rw [access_workers]; exact hholding)
  | take _ hwaiting => exact .inl (hother _ hwaiting (by simp))
  | @handle w' id' request _ hhandled =>
    by_cases hsame : w = w'
    · subst hsame
      obtain ⟨rfl, -⟩ := Worker.holding.inj (hholding.symm.trans hhandled)
      exact .inr ⟨Function.update_self .., by simp [Executor.handled, Executor.set, Executor.put]⟩
    · exact .inl ((Function.update_of_ne hsame _ _).trans hholding)
  | ready _ hready | resume _ hready => exact .inl (hother _ hready (by simp))
  | leave _ hwaiting => exact .inl (hother _ hwaiting (by simp))

/-- **What becomes of a request, in every state.** It is queued once at most, and handed over once at most, with the
whole of its body; it is answered at most once; and until it is handed over it waits in the queue or with a worker,
which goes on with it by handing it over. A worker returns to an empty queue that takes no more, and the limits are
kept. -/
theorem requests_kept {options : HttpServerOptions} {s : Executor} (h : Reached options s) :
    (∀ id, (s.slots id).exchange.handed.length ≤ (s.slots id).exchange.queued ∧ (s.slots id).exchange.queued ≤ 1 ∧
      (s.slots id).exchange.answers.length ≤ 1 ∧
      ((s.slots id).exchange.queued ≠ 0 → (s.slots id).exchange.offers ≤ 1) ∧
      (∀ input ∈ (s.slots id).exchange.handed,
        (s.slots id).exchange.ended = true ∧ input.body = (s.slots id).exchange.delivered) ∧
      ((s.slots id).exchange.queued ≠ 0 → (s.slots id).exchange.handed ≠ [] ∨ id ∈ s.jobs ∨
        ∃ w < options.workers, s.workers w = .holding id .taken)) ∧
    (∀ t w id, Step options s t → s.workers w = .holding id .taken → t.workers w = .holding id .taken ∨
      t.workers w = .holding id .handled ∧ (t.slots id).exchange.handed ≠ []) ∧
    (∀ w, s.workers w = .returned → s.accepting = false ∧ s.jobs = []) ∧
    s.jobs.length ≤ options.queue ∧
    s.bodyBytes = ∑ id ∈ Finset.range s.next, (s.slots id).bytes ∧ s.bodyBytes ≤ options.totalBodyBytes ∧
    ∀ id, (s.slots id).bytes ≤ options.bodyBytes := by
  have hinv := h.inv
  refine ⟨fun id => ?_, fun t w id hstep hholding => hstep.hands hholding, hinv.drained, hinv.limited, hinv.account,
    hinv.total, fun id => (hinv.good id).bytes⟩
  have hright := (hinv.good id).right
  exact ⟨hright.handed, hright.queued, hright.answers, hright.offers, hright.whole, hinv.kept id⟩

/-- The first of two requests is handed over while the server drains; the second has come to the limit of bodies. -/
theorem requests_kept_narrow : ∃ s : Executor, s.workers 0 = .returned ∧ s.jobs = [] ∧ s.bodyBytes ≤ 1 ∧
    (s.slots 0).exchange.handed ≠ [] ∧ (s.slots 0).exchange.offers ≤ 1 ∧
    (∀ input ∈ (s.slots 0).exchange.handed, input.body = ascii "x") ∧
    (s.slots 1).exchange.handed.length ≤ (s.slots 1).exchange.queued ∧ (s.slots 1).exchange.queued = 0 := by
  have h : Reached narrow {} := ⟨_, ⟨by decide, rfl⟩, .refl⟩
  have h := (h.step (.begin (ascii "/") false)).step (.begin (ascii "/") false)
  have h := h.step (@Step.access narrow _ 0 {method := ascii "GET"} (by decide) rfl rfl rfl (by decide))
  have h := h.step (@Step.access narrow _ 1 {method := ascii "GET"} (by decide) rfl rfl rfl (by decide))
  have h := h.step
    (@Step.access narrow _ 0 {method := ascii "GET", upload := ascii "x"} (by decide) rfl rfl rfl fun _ => ⟨rfl, rfl⟩)
  have h := h.step
    (@Step.access narrow _ 1 {method := ascii "GET", upload := ascii "y"} (by decide) rfl rfl rfl fun _ => ⟨rfl, rfl⟩)
  have h := h.step (@Step.access narrow _ 0 {method := ascii "GET"} (by decide) rfl rfl rfl (by decide))
  have h := h.step (@Step.access narrow _ 1 {method := ascii "GET"} (by decide) rfl rfl rfl (by decide))
  have h := (h.step (@Step.take narrow _ 0 0 [] (by decide) rfl rfl)).step .close
  have h := h.step (.handle (w := 0) (by decide) rfl rfl none)
  have h := h.step (.ready (w := 0) (by decide) rfl rfl)
  have h := h.step (.resume (w := 0) (by decide) rfl)
  have h := h.step (@Step.access narrow _ 0 {method := ascii "GET"} (by decide) rfl rfl rfl (by decide))
  have h := (h.step (.leave (w := 0) (by decide) rfl rfl rfl)).step (@Step.complete narrow _ 0 (by decide) rfl rfl)
  obtain ⟨heach, -, hdrained, -, -, htotal, -⟩ := requests_kept h
  obtain ⟨-, -, -, hoffers, hwhole, hkept⟩ := heach 0
  obtain ⟨-, hempty⟩ := hdrained 0 rfl
  refine ⟨_, rfl, hempty, htotal, ?_, hoffers (by decide), fun input hinput => (hwhole input hinput).2, (heach 1).1,
    rfl⟩
  rcases hkept (by decide) with hhanded | hmem | ⟨w, hw, hholding⟩
  · exact hhanded
  · rw [hempty] at hmem
    cases hmem
  · obtain rfl : w = 0 := Nat.lt_one_iff.mp hw
    cases hholding

/-! ### The drain -/

/-- The steps that a worker takes until it waits again, and that in which it returns. -/
def Worker.steps : Worker → Nat
  | .holding _ .taken => 4
  | .holding _ .handled => 3
  | .holding _ .ready => 2
  | .waiting => 1
  | .returned => 0

/-- The steps that the workers take until they have returned, when nothing is queued any more. -/
def Executor.left (options : HttpServerOptions) (s : Executor) : Nat :=
  4 * s.jobs.length + ∑ w ∈ Finset.range options.workers, (s.workers w).steps

/-- A run, with how many of its steps were the workers'. -/
inductive Run (options : HttpServerOptions) (s : Executor) : Nat → Executor → Prop
  | refl : Run options s 0 s
  | library {n : Nat} {t u : Executor} : Run options s n t → Step options t u → u.workers = t.workers →
    Run options s n u
  | worker {n : Nat} {t u : Executor} : Run options s n t → Step options t u → u.workers ≠ t.workers →
    Run options s (n + 1) u

section
variable {options : HttpServerOptions} {s t : Executor} {w id : Nat}

/-- Behind the first statement of `Drain` the library changes neither the queue nor the workers. -/
theorem access_idle (hclosed : s.accepting = false) (call : Call) :
    (s.access options id call).jobs = s.jobs ∧ (s.access options id call).accepting = false := by
  have hput : ∀ slot, (s.put id slot).jobs = s.jobs ∧ (s.put id slot).accepting = false := fun _ => ⟨rfl, hclosed⟩
  have hsend : ∀ request exchange, (s.send options id request exchange call).jobs = s.jobs ∧
      (s.send options id request exchange call).accepting = false := by
    intro request exchange
    unfold Executor.send
    split <;> exact hput _
  unfold Executor.access
  dsimp only
  split
  · exact hput _
  · split
    · split <;> exact hput _
    · split
      · exact hsend _ _
      · split
        · unfold Executor.takePiece
          split <;> exact ⟨rfl, hclosed⟩
        · unfold Executor.endBody
          split
          · exact hsend _ _
          · exact hput _
          · exact hput _
          · rw [hclosed, if_pos (by rfl)]
            exact hsend _ _

/-- A worker takes its next step. -/
theorem left_worked {old new : Worker} (hw : w < options.workers) (hold : s.workers w = old) (hne : new ≠ old)
    (hsteps : 4 * t.jobs.length + new.steps + 1 = 4 * s.jobs.length + old.steps)
    (hworkers : t.workers = Function.update s.workers w new) :
    t.workers ≠ s.workers ∧ t.left options + 1 = s.left options := by
  refine ⟨fun hsame => hne ?_, ?_⟩
  · rw [← hold, ← hsame, hworkers, Function.update_self]
  · have hsum := sum_update Worker.steps hw s.workers new
    rw [hold] at hsum
    unfold Executor.left
    rw [hworkers]
    omega

/-- Every step of a worker is one of those that are left. -/
theorem Step.left (h : Step options s t) (hclosed : s.accepting = false) :
    t.accepting = false ∧ (t.workers = s.workers ∧ t.left options = s.left options ∨
      t.workers ≠ s.workers ∧ t.left options + 1 = s.left options) := by
  cases h with
  | begin | complete | close => exact ⟨by first | exact hclosed | rfl, .inl ⟨rfl, rfl⟩⟩
  | @access id call =>
    obtain ⟨hjobs, haccepting⟩ := @access_idle options s id hclosed call
    have hworkers := @access_workers options s id call
    exact ⟨haccepting, .inl ⟨hworkers, by rw [Executor.left, Executor.left, hjobs, hworkers]⟩⟩
  | take hw hwaiting hjobs =>
    refine ⟨hclosed, .inr (left_worked hw hwaiting (by simp) ?_ rfl)⟩
    rw [hjobs, List.length_cons]
    simp only [Executor.set, Worker.steps]
    omega
  | handle hw hholding | ready hw hholding | resume hw hholding =>
    exact ⟨hclosed, .inr (left_worked hw hholding (by simp) rfl rfl)⟩
  | leave hw hwaiting => exact ⟨hclosed, .inr (left_worked hw hwaiting (by simp) rfl rfl)⟩

/-- A worker that has not returned is not what the others wait for in vain. -/
theorem Inv.works (h : Inv options s) (hclosed : s.accepting = false) (hw : w < options.workers)
    (hworking : s.workers w ≠ .returned) : ∃ t, Step options s t ∧ t.workers ≠ s.workers := by
  have hstep : ∀ {t}, Step options s t → s.workers w ≠ t.workers w → ∃ t, Step options s t ∧ t.workers ≠ s.workers :=
    fun hstep hne => ⟨_, hstep, fun hsame => hne (congrFun hsame.symm w)⟩
  cases hold : s.workers w with
  | waiting =>
    cases hjobs : s.jobs with
    | nil => exact hstep (.leave hw hold hjobs hclosed) (by simp [Executor.set, hold])
    | cons id rest => exact hstep (.take hw hold hjobs) (by simp [Executor.set, hold])
  | holding id stage =>
    obtain ⟨-, -, request, hrequest, -⟩ := h.held w id stage hold
    cases stage with
    | taken => exact hstep (.handle hw hold hrequest none) (by simp [Executor.handled, Executor.set, hold])
    | handled => exact hstep (.ready hw hold hrequest) (by simp [Executor.set, hold])
    | ready => exact hstep (.resume hw hold) (by simp [Executor.set, hold])
  | returned => exact absurd hold hworking

theorem Run.left {n : Nat} (hrun : Run options s n t) (h : Reached options s) (hclosed : s.accepting = false) :
    Reached options t ∧ t.accepting = false ∧ n + t.left options = s.left options := by
  induction hrun with
  | refl => exact ⟨h, hclosed, Nat.zero_add _⟩
  | library _ hstep hsame ih =>
    obtain ⟨hreached, hclosed, hleft⟩ := ih
    obtain ⟨hafter, hone⟩ := hstep.left hclosed
    rcases hone with ⟨-, heq⟩ | ⟨hne, -⟩
    · exact ⟨hreached.step hstep, hafter, heq ▸ hleft⟩
    · exact absurd hsame hne
  | worker _ hstep hne ih =>
    obtain ⟨hreached, hclosed, hleft⟩ := ih
    obtain ⟨hafter, hone⟩ := hstep.left hclosed
    rcases hone with ⟨hsame, -⟩ | ⟨-, heq⟩
    · exact absurd hsame hne
    · exact ⟨hreached.step hstep, hafter, by omega⟩

theorem Worker.steps_le (worker : Worker) : worker.steps ≤ 4 := by
  cases worker with
  | holding id stage => cases stage <;> simp [Worker.steps]
  | _ => simp [Worker.steps]

theorem Inv.left_le (h : Inv options s) : s.left options ≤ 4 * (options.queue + options.workers) := by
  have hsteps : ∑ w ∈ Finset.range options.workers, (s.workers w).steps ≤ options.workers * 4 :=
    calc _ ≤ ∑ _ ∈ Finset.range options.workers, 4 := Finset.sum_le_sum fun w _ => (s.workers w).steps_le
      _ = options.workers * 4 := by rw [Finset.sum_const_nat fun _ _ => rfl, Finset.card_range]
  have hjobs := h.limited
  unfold Executor.left
  omega

end

/-- **The drain ends.** Behind its first statement the workers take as many steps as were left, whatever the library
does in between, and no more than four for each place in the queue and each worker; while one has not returned, one can
take its next; and when all have, every request that was queued has been handed to the handler. -/
theorem drain_ends {options : HttpServerOptions} {s t : Executor} {n : Nat} (h : Reached options s)
    (hclosed : s.accepting = false) (hrun : Run options s n t) :
    n + t.left options = s.left options ∧ s.left options ≤ 4 * (options.queue + options.workers) ∧
    ((∀ w < options.workers, t.workers w = .returned) ∨ ∃ u, Step options t u ∧ u.workers ≠ t.workers) ∧
    (t.left options = 0 → ∀ id, (t.slots id).exchange.queued ≠ 0 → (t.slots id).exchange.handed ≠ []) := by
  obtain ⟨hreached, hafter, hleft⟩ := hrun.left h hclosed
  refine ⟨hleft, h.inv.left_le, ?_, fun hnone id hqueued => ?_⟩
  · by_cases hall : ∀ w < options.workers, t.workers w = .returned
    · exact .inl hall
    · push Not at hall
      obtain ⟨w, hw, hworking⟩ := hall
      exact .inr (hreached.inv.works hafter hw hworking)
  · obtain ⟨hjobs, hsteps⟩ := Nat.add_eq_zero_iff.mp hnone
    rcases hreached.inv.kept id hqueued with hhanded | hmem | ⟨w, hw, hholding⟩
    · exact hhanded
    · have hjobs : t.jobs = [] := List.length_eq_zero_iff.mp (by omega)
      rw [hjobs] at hmem
      cases hmem
    · have hzero := Finset.sum_eq_zero_iff.mp hsteps w (Finset.mem_range.mpr hw)
      rw [hholding] at hzero
      cases hzero

section
variable {options : HttpServerOptions} {s t : Executor} {n w id : Nat}

theorem Run.moved (hrun : Run options s n t) {u : Executor} (hstep : Step options t u)
    (hne : u.workers w ≠ t.workers w) : Run options s (n + 1) u :=
  .worker hrun hstep fun hsame => hne (congrFun hsame w)

/-- A worker takes a request, hands it over, wakes it, and waits again. -/
theorem Run.serves (hrun : Run options s n t) (hw : w < options.workers) (hwaiting : t.workers w = .waiting)
    {rest : List Nat} (hjobs : t.jobs = id :: rest) {request : Request}
    (hrequest : (t.slots id).request = some request) :
    ∃ u, Run options s (n + 4) u ∧ u.jobs = rest ∧ u.workers = t.workers ∧ u.accepting = t.accepting ∧
      (u.slots id).exchange.handed ≠ [] ∧ ∀ other ≠ id, u.slots other = t.slots other := by
  let taken : Executor := ({t with jobs := rest} : Executor).set w (.holding id .taken)
  let handled := taken.handled w id request none
  have hset : ∀ (executor : Executor) worker, (executor.set w worker).workers w = worker :=
    fun _ _ => Function.update_self ..
  have htaken : Run options s (n + 1) taken :=
    hrun.moved (w := w) (.take hw hwaiting hjobs) (by rw [hset, hwaiting]; exact Worker.noConfusion)
  have hhandled : Run options s (n + 2) handled :=
    htaken.moved (w := w) (@Step.handle options taken w id request hw (hset _ _) hrequest none)
      (by simp [handled, taken, Executor.handled, hset])
  have hanswered : (handled.slots id).request =
      some {request with output := refusal 500 (ascii "HttpHandlerFailure")} := by
    simp [handled, Executor.handled, Executor.set, Executor.put]
  have hready := hhandled.moved (w := w) (@Step.ready options handled w id _ hw (hset _ _) hanswered)
    (by simp [handled, Executor.handled, hset])
  have hresumed := hready.moved (w := w) (@Step.resume options _ w id hw (hset _ _)) (by simp [hset])
  refine ⟨_, hresumed, rfl, ?_, rfl, ?_, fun other hother => ?_⟩
  · rw [← hwaiting]
    simp [handled, taken, Executor.handled, Executor.set, Executor.put]
  · simp [handled, Executor.handled, Executor.set, Executor.put]
  · simp [handled, taken, Executor.handled, Executor.set, Executor.put, hother]

end

/-- Two workers, two places in the queue. -/
def wide : HttpServerOptions := ⟨2, 2, 2, 1, 1, 2, 128⟩

/-- Two requests whose bodies have ended, when the drain begins. -/
def draining : Executor :=
  let get : Call := {method := ascii "GET"}
  let s := (({} : Executor).begin (ascii "/") false).begin (ascii "/") false
  let s := ((s.access wide 0 get).access wide 1 get).access wide 0 get
  {s.access wide 1 get with accepting := false}

theorem draining_reached : Reached wide draining := by
  have h : Reached wide {} := ⟨_, ⟨by decide, rfl⟩, .refl⟩
  have h := (h.step (.begin (ascii "/") false)).step (.begin (ascii "/") false)
  have h := h.step (@Step.access wide _ 0 {method := ascii "GET"} (by decide) rfl rfl rfl (by decide))
  have h := h.step (@Step.access wide _ 1 {method := ascii "GET"} (by decide) rfl rfl rfl (by decide))
  have h := h.step (@Step.access wide _ 0 {method := ascii "GET"} (by decide) rfl rfl rfl (by decide))
  have h := h.step (@Step.access wide _ 1 {method := ascii "GET"} (by decide) rfl rfl rfl (by decide))
  exact h.step .close

/-- Each worker takes one, hands it to the handler, wakes it and returns. -/
theorem drain_ends_wide : ∃ t : Executor, draining.jobs = [0, 1] ∧ Run wide draining 10 t ∧ t.left wide = 0 ∧
    ∀ id, (t.slots id).exchange.queued ≠ 0 → (t.slots id).exchange.handed ≠ [] := by
  obtain ⟨first, hfirst⟩ := Option.isSome_iff_exists.mp
    (show (draining.slots 0).request.isSome = true by decide +kernel)
  obtain ⟨second, hsecond⟩ := Option.isSome_iff_exists.mp
    (show (draining.slots 1).request.isSome = true by decide +kernel)
  have hjobs : draining.jobs = [0, 1] := by decide +kernel
  obtain ⟨t, hrun, hleft, hworkers, hclosed, -, hothers⟩ :=
    (@Run.refl wide draining).serves (w := 0) (by decide) rfl hjobs hfirst
  rw [← hothers 1 (by decide)] at hsecond
  obtain ⟨u, hrun, hempty, hwaiting, hshut, -, -⟩ :=
    hrun.serves (w := 1) (by decide) (by rw [hworkers]; rfl) hleft hsecond
  rw [hworkers] at hwaiting
  rw [hclosed] at hshut
  have hreturned := hrun.moved (w := 0) (@Step.leave wide u 0 (by decide) (by rw [hwaiting]; rfl) hempty hshut)
    (by rw [hwaiting]; exact Worker.noConfusion)
  have hall := hreturned.moved (w := 1)
    (@Step.leave wide (u.set 0 .returned) 1 (by decide) (by simp [Executor.set, hwaiting]; rfl) hempty hshut)
    (by simp [Executor.set, hwaiting]; exact Worker.noConfusion)
  obtain ⟨hleft, -, -, hhanded⟩ := drain_ends draining_reached rfl hall
  have hten : draining.left wide = 10 := by decide +kernel
  refine ⟨_, hjobs, hall, by omega, hhanded (by omega)⟩

end Agiru.Http
