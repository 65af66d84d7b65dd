import Agiru.Events.Bindings

/-! A dispatch is stable under what the subscribers do. -/
namespace Agiru.Events
open Bytes

variable {μ : Type} {s t u : State μ}
variable {taken : List (Taken μ)}
variable {session : SessionState}
variable {catalogue : SubscriptionCatalogue μ} {subscription : Subscription μ}

/-- What runs the code of the subscribers of a raise. -/
def runWithin (registered : List (SubscriptionCatalogue μ)) (depth : Nat) (program : Program μ) : Run μ Unit :=
  perform registered (fun event s => (raiseWithin registered depth event s).map fun (result, _, t) => (result, t))
    program

theorem raiseWithin_succ (registered : List (SubscriptionCatalogue μ)) (depth : Nat) (event : Event) (s : State μ) :
    raiseWithin registered (depth + 1) event s = dispatch registered (runWithin registered depth) event s := rfl

theorem runWithin_keeps (registered : List (SubscriptionCatalogue μ)) (depth : Nat) (program : Program μ) :
    Keeps (runWithin registered depth program) := by
  refine perform_keeps (fun event s result t h => ?_) program
  obtain ⟨⟨result', turns, u⟩, hraise, heq⟩ := Option.map_eq_some_iff.mp h
  cases heq
  exact raise_keeps registered depth event _ _ _ _ hraise

/-! ### What a dispatch is to do -/

/-- The instances of a turn, each invoked or passed over, one after the other. -/
def Chained (run : Program μ → Run μ Unit) (invoke : Address → Program μ) (isolated : Bool) :
    List (Taken μ) → State μ → State μ → Prop
  | [], s, t => s = t
  | taken :: rest, s, t => taken.before = s ∧
      (if taken.invoked then ∃ result, run (invoke taken.invocation.address) s = some (result, taken.after) ∧
          (isolated = false → result = .ok ())
        else taken.after = s) ∧
      Chained run invoke isolated rest taken.after t

/-- The turns of a dispatch, one after the other. -/
def Following : List (Turn μ) → State μ → State μ → Prop
  | [], s, t => s = t
  | turn :: rest, s, t => turn.start = s ∧ Following rest turn.after t

/-- The instances bound for a catalogue when its turn began, in the order of their bindings; one is
invoked where its binding is there when its own turn comes. -/
def TakesBound (turn : Turn μ) : Prop :=
  List.Forall₂ (fun held taken =>
      taken.invocation = ⟨held.address, held.generation⟩ ∧
        (taken.invoked = true ↔ held ∈ taken.before.bound))
    (turn.start.bound.filter fun held => held.catalogue = turn.place) turn.taken ∧
  turn.taken.Pairwise fun taken taken' =>
    taken.invocation.address ≠ taken'.invocation.address ∧
      taken.invocation.generation < taken'.invocation.generation

/-- What the turn of a subscription is to do. -/
def TurnRight (run : Program μ → Run μ Unit) (event : Event) (turn : Turn μ) : Prop :=
  ∃ bound, (turn.taken ≠ [] → bindParameters turn.subscription turn.catalogue event.args = .ok bound) ∧
    let chained := Chained run (fun address => turn.subscription.invoke address event.args bound) event.isolated
    if turn.catalogue.manual then TakesBound turn ∧ chained turn.taken turn.start turn.after
    else ∃ taken, turn.taken = [taken] ∧ taken.invoked = true ∧
      if turn.catalogue.singleInstance then
        ∃ begun, singleInstanceOf turn.catalogue turn.start = (.ok taken.invocation.address, begun) ∧
          chained turn.taken begun turn.after
      else
        ∃ begun ended, makeSubscriber turn.catalogue turn.start = (.ok taken.invocation.address, begun) ∧
          chained turn.taken begun ended ∧
          turn.after = freeSubscriber turn.catalogue taken.invocation.address ended

/-! ### Instances -/

/-- A generation is that of one binding. -/
theorem SessionState.binding_unique (session : SessionState) {held other : Binding} (h : held ∈ session.bindings)
    (h' : other ∈ session.bindings) (heq : other.generation = held.generation) : other = held := by
  have hnodup : (session.bindings.map Binding.generation).Nodup :=
    List.pairwise_map.mpr (session.ascending.imp fun hlt => Nat.ne_of_lt hlt)
  exact List.inj_on_of_nodup_map hnodup h' h heq

/-- An instance is still bound exactly where its own binding is there. -/
theorem stillBound_iff {start : State μ} (hpeek : start.peek = some session)
    (hkept : Kept start s) {held : Binding} (hmem : held ∈ session.bindings) :
    stillBound (some session.identity) held.generation s = true ↔ held ∈ s.bound := by
  obtain ⟨later, hlater, hsame⟩ := hkept.peek hpeek
  have hne : held.generation ≠ 0 := Nat.ne_of_gt (session.counted held hmem).1
  simp only [stillBound, State.bound, hlater, hne, decide_false, Bool.false_or, hsame.identity, decide_true,
    Bool.true_and, Option.map_some, Option.getD_some, List.any_eq_true, decide_eq_true_eq]
  constructor
  · rintro ⟨other, hother, heq⟩
    have hbefore := hsame.bindings other hother (heq ▸ (session.counted held hmem).2)
    rwa [← session.binding_unique hmem hbefore heq]
  · exact fun h => ⟨held, h, rfl⟩

section Turn
variable {run : Program μ → Run μ Unit} {event : Event} {invoke : Address → Program μ} {isolated : Bool}

/-- The instances that were bound when the turn began. -/
theorem invokeEach_bound (hrun : ∀ program, Keeps (run program)) {start : State μ}
    (hpeek : start.peek = some session) (helds : List Binding) (hmem : ∀ held ∈ helds, held ∈ session.bindings)
    (hkept : Kept start s)
    (h : invokeEach run invoke isolated (some session.identity)
      (helds.map fun held => ⟨held.address, held.generation⟩) s = some (.ok (), taken, t)) :
    List.Forall₂ (fun held taken => taken.invocation = ⟨held.address, held.generation⟩ ∧
        (taken.invoked = true ↔ held ∈ taken.before.bound)) helds taken ∧
      Chained run invoke isolated taken s t := by
  induction helds generalizing s taken with
  | nil =>
    cases h
    exact ⟨.nil, rfl⟩
  | cons held helds ih =>
    have hbound := stillBound_iff hpeek hkept (hmem held List.mem_cons_self)
    have hmem' : ∀ other ∈ helds, other ∈ session.bindings := fun other h => hmem other (List.mem_cons_of_mem _ h)
    rw [List.map_cons, invokeEach] at h
    split at h
    · rename_i hstill
      split at h
      · cases h
      · rename_i result s' hinvoke
        split at h
        · cases h
        · rename_i hok
          obtain ⟨⟨result', taken', t'⟩, hrest, heq⟩ := Option.map_eq_some_iff.mp h
          cases heq
          obtain ⟨hforall, hchained⟩ := ih hmem' (hkept.trans (hrun _ _ _ _ hinvoke)) hrest
          refine ⟨.cons ⟨rfl, by simpa using hbound.mp hstill⟩ hforall, rfl, ?_, hchained⟩
          refine ⟨result, hinvoke, fun hisolated => ?_⟩
          simpa [hisolated] using hok
    · rename_i hgone
      obtain ⟨⟨result', taken', t'⟩, hrest, heq⟩ := Option.map_eq_some_iff.mp h
      cases heq
      obtain ⟨hforall, hchained⟩ := ih hmem' hkept hrest
      refine ⟨.cons ⟨rfl, ?_⟩ hforall, rfl, rfl, hchained⟩
      exact ⟨(by intro hnone; cases hnone), fun hheld => absurd (hbound.mpr hheld) hgone⟩

/-- An instance that is not bound. -/
theorem invokeEach_unbound {owner : Option Nat} {address : Address}
    (h : invokeEach run invoke isolated owner [⟨address, 0⟩] s = some (.ok (), taken, t)) :
    ∃ one, taken = [one] ∧ one.invoked = true ∧ one.invocation.address = address ∧
      Chained run invoke isolated taken s t := by
  rw [invokeEach] at h
  simp only [stillBound, decide_true, Bool.true_or, if_true] at h
  split at h
  · cases h
  · rename_i result s' hinvoke
    split at h
    · cases h
    · rename_i hok
      cases h
      refine ⟨_, rfl, rfl, rfl, rfl, ⟨result, hinvoke, fun hisolated => ?_⟩, rfl⟩
      simpa [hisolated] using hok

/-- The instances of a turn with their parameters. -/
theorem of_invokeBound {owner : Option Nat} {instances : List Invocation}
    (h : invokeBound run catalogue subscription event owner instances s = some (.ok (), taken, t)) :
    instances = [] ∧ taken = [] ∧ s = t ∨
      ∃ bound, bindParameters subscription catalogue event.args = .ok bound ∧
        invokeEach run (fun address => subscription.invoke address event.args bound) event.isolated owner instances s =
          some (.ok (), taken, t) := by
  unfold invokeBound at h
  split at h
  · rename_i hnil
    cases h
    exact .inl ⟨hnil, rfl, rfl⟩
  · split at h
    · cases h
    · rename_i bound hbound
      exact .inr ⟨bound, hbound, h⟩

theorem pairwise_taken {helds : List Binding} (hsub : helds.Sublist session.bindings)
    (h : List.Forall₂ (fun held taken => taken.invocation = ⟨held.address, held.generation⟩ ∧
        (taken.invoked = true ↔ held ∈ taken.before.bound)) helds taken) :
    taken.Pairwise fun taken taken' => taken.invocation.address ≠ taken'.invocation.address ∧
      taken.invocation.generation < taken'.invocation.generation := by
  have hpair := (session.distinct.and session.ascending).sublist hsub
  clear hsub
  induction h with
  | nil => exact .nil
  | @cons held one helds taken hone hrest ih =>
    obtain ⟨hhead, htail⟩ := List.pairwise_cons.mp hpair
    refine List.pairwise_cons.mpr ⟨fun other hother => ?_, ih htail⟩
    obtain ⟨i, hi, rfl⟩ := List.getElem_of_mem hother
    have hlen := hrest.length_eq
    obtain ⟨heq, -⟩ := (List.forall₂_iff_get.mp hrest).2 i (hlen ▸ hi) hi
    have hheld := hhead _ (List.getElem_mem (hlen ▸ hi))
    simp only [List.get_eq_getElem] at heq
    rw [hone.1, heq]
    exact hheld

theorem takeTurn_right (hrun : ∀ program, Keeps (run program)) {place : Nat}
    (h : takeTurn run catalogue place subscription event s = some (.ok (), taken, t)) :
    TurnRight run event ⟨catalogue, place, subscription, s, taken, t⟩ := by
  unfold takeTurn at h
  split at h
  · rename_i hmanual
    unfold TurnRight
    simp only [hmanual, if_true]
    rcases of_invokeBound h with ⟨hnone, rfl, rfl⟩ | ⟨bound, hbound, heach⟩
    · refine ⟨[], fun hne => absurd rfl hne, ⟨?_, .nil⟩, rfl⟩
      have hfilter : (s.bound.filter fun held => held.catalogue = place) = [] := List.map_eq_nil_iff.mp hnone
      simp only [hfilter, List.forall₂_nil_left_iff]
    · refine ⟨bound, fun _ => hbound, ?_⟩
      cases hpeek : s.peek with
      | none =>
        have hnone : s.bound = [] := by simp [State.bound, hpeek]
        simp only [boundInstances, hnone, List.filter_nil, List.map_nil, invokeEach] at heach
        cases heach
        refine ⟨⟨?_, .nil⟩, rfl⟩
        simp [hnone]
      | some session =>
        have hbindings : s.bound = session.bindings := by simp [State.bound, hpeek]
        rw [boundInstances, hpeek] at heach
        obtain ⟨hforall, hchained⟩ := invokeEach_bound hrun hpeek _ (fun held hmem => by
          rw [hbindings] at hmem
          exact (List.mem_filter.mp hmem).1) (.refl s) heach
        have hsub : (s.bound.filter fun held => held.catalogue = place).Sublist session.bindings := by
          rw [hbindings]
          exact List.filter_sublist
        exact ⟨⟨hforall, pairwise_taken hsub hforall⟩, hchained⟩
  · rename_i hmanual
    split at h
    · rename_i hsingle
      split at h
      · cases h
      · rename_i address begun hbegun
        rcases of_invokeBound h with ⟨hnone, -⟩ | ⟨bound, hbound, heach⟩
        · cases hnone
        · obtain ⟨one, hone, hinvoked, haddress, hchained⟩ := invokeEach_unbound heach
          refine ⟨bound, fun _ => hbound, ?_⟩
          simp only [hmanual, hsingle, if_true]
          exact ⟨one, hone, hinvoked, begun, haddress ▸ hbegun, hchained⟩
    · rename_i hsingle
      split at h
      · cases h
      · rename_i address begun hbegun
        obtain ⟨⟨result, taken', ended⟩, hinvoke, heq⟩ := Option.map_eq_some_iff.mp h
        cases heq
        rcases of_invokeBound hinvoke with ⟨hnone, -⟩ | ⟨bound, hbound, heach⟩
        · cases hnone
        · obtain ⟨one, hone, hinvoked, haddress, hchained⟩ := invokeEach_unbound heach
          refine ⟨bound, fun _ => hbound, ?_⟩
          simp only [hmanual, hsingle]
          exact ⟨one, hone, hinvoked, begun, ended, haddress ▸ hbegun, hchained, haddress ▸ rfl⟩

theorem dispatchEach_right (hrun : ∀ program, Keeps (run program))
    (places : List (SubscriptionCatalogue μ × Nat × Subscription μ)) {turns : List (Turn μ)}
    (h : dispatchEach run event places s = some (.ok (), turns, t)) :
    (turns.map fun turn => (turn.catalogue, turn.place, turn.subscription)) =
        places.filter (fun place => listens place.2.2 event) ∧
      Following turns s t ∧ ∀ turn ∈ turns, TurnRight run event turn := by
  induction places generalizing s turns with
  | nil =>
    cases h
    exact ⟨rfl, rfl, nofun⟩
  | cons place rest ih =>
    obtain ⟨catalogue, place, subscription⟩ := place
    rw [dispatchEach] at h
    split at h
    · rename_i hlistens
      split at h
      · cases h
      · cases h
      · rename_i taken after hturn
        obtain ⟨⟨result, turns', u⟩, hrest, heq⟩ := Option.map_eq_some_iff.mp h
        cases heq
        obtain ⟨hplaces, hfollowing, hright⟩ := ih hrest
        refine ⟨?_, ⟨rfl, hfollowing⟩, ?_⟩
        · rw [List.map_cons, hplaces]
          have hfilter := List.filter_cons_of_pos (p := fun place => listens place.2.2 event)
            (a := (catalogue, place, subscription)) (l := rest) hlistens
          exact hfilter.symm
        · intro turn hmem
          rcases List.mem_cons.mp hmem with rfl | hmem
          · exact takeTurn_right hrun hturn
          · exact hright turn hmem
    · rename_i hdeaf
      have hfilter := List.filter_cons_of_neg (p := fun place => listens place.2.2 event)
        (a := (catalogue, place, subscription)) (l := rest) hdeaf
      rw [hfilter]
      exact ih h

end Turn

/-! ### One turn for each subscription -/

/-- **A raise that ends without an error** gives every listening subscription one turn, by the id of
its codeunit and as declared, and in it invokes the instances that were bound when the turn began
and are still bound when their own turn comes. -/
theorem raise_stable (registered : List (SubscriptionCatalogue μ)) (depth : Nat) (event : Event)
    {turns : List (Turn μ)} (h : raiseWithin registered (depth + 1) event s = some (.ok (), turns, t)) :
    (catalogues registered).Perm registered ∧ (catalogues registered).Pairwise (fun a b => a.id ≤ b.id) ∧
    (turns.map fun turn => (turn.catalogue, turn.place, turn.subscription)) =
      (subscriptions registered).filter (fun place => listens place.2.2 event) ∧
    Following turns s t ∧ ∀ turn ∈ turns, TurnRight (runWithin registered depth) event turn := by
  refine ⟨List.mergeSort_perm .., ?_, ?_⟩
  · have hsorted := @List.pairwise_mergeSort _ (fun a b : SubscriptionCatalogue μ => decide (a.id ≤ b.id))
      (fun a b c h h' => by simp only [decide_eq_true_eq] at *; omega)
      (fun a b => by simp only [Bool.or_eq_true, decide_eq_true_eq]; omega) registered
    simpa [catalogues] using hsorted
  · rw [raiseWithin_succ] at h
    exact dispatchEach_right (runWithin_keeps registered depth) _ h

/-! ### A run -/

/-- A manual codeunit: its first instance destroys the second. -/
def listener : SubscriptionCatalogue Unit where
  id := 50101
  name := ascii "Listener"
  subscriptions := [{
    kind := .codeunit
    objectId := 50100
    objectName := ascii "Publisher"
    event := ascii "OnBeforePost"
    element := []
    parameters := []
    invoke := fun address _ _ => if address = 10 then .destroy 50101 20 (.done (.ok ())) else .done (.ok ())}]
  manual := true
  singleInstance := false
  factory := none
  free := fun _ => []

def posting : Event where
  kind := .codeunit
  objectId := 50100
  objectName := ascii "Publisher"
  event := ascii "OnBeforePost"
  element := []
  args := ⟨[], [], false⟩

/-- A session with both instances bound. -/
def listening : State Unit where
  sessions := [some {identity := 0, bindings := [⟨50101, 0, 10, 1⟩, ⟨50101, 0, 20, 2⟩], lastBinding := 2}]
  memory := ()

theorem listener_raise : ∃ turns t, raiseWithin [listener] 1 posting listening = some (.ok (), turns, t) ∧
    turns.map (fun turn => turn.taken.map fun taken => (taken.invocation.address, taken.invoked)) =
      [[(10, true), (20, false)]] := by
  have hplaces : subscriptions [listener] = [(listener, 0, listener.subscriptions.head (by decide))] := by
    simp [subscriptions, catalogues, listener]
  rw [raiseWithin_succ, dispatch, hplaces]
  exact ⟨_, _, rfl, rfl⟩

theorem listener_raise_stable : ∃ turns t, raiseWithin [listener] 1 posting listening = some (.ok (), turns, t) ∧
    turns.map (fun turn => turn.taken.map fun taken => (taken.invocation.address, taken.invoked)) =
      [[(10, true), (20, false)]] ∧
    Following turns listening t ∧ ∀ turn ∈ turns, TurnRight (runWithin [listener] 0) posting turn := by
  obtain ⟨turns, t, h, htaken⟩ := listener_raise
  obtain ⟨-, -, -, hfollowing, hright⟩ := raise_stable [listener] 0 posting h
  exact ⟨turns, t, h, htaken, hfollowing, hright⟩

end Agiru.Events
