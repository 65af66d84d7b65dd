import Agiru.Events.Subscriptions

/-! What subscribers may do to the bindings of the sessions they run in.

Whatever a program does, a generation that a session has given stays with its binding: it is there
as it was, or it is gone for good. -/
namespace Agiru.Events
open Bytes

variable {μ : Type} {s t u : State μ}

/-! ### Sessions -/

/-- A session, and the same session later. -/
structure SessionState.Later (session later : SessionState) : Prop where
  identity : later.identity = session.identity
  lastBinding : session.lastBinding ≤ later.lastBinding
  /-- Only a binding of a new generation is new. -/
  bindings : ∀ held ∈ later.bindings, held.generation ≤ session.lastBinding → held ∈ session.bindings

theorem SessionState.Later.refl (session : SessionState) : session.Later session :=
  ⟨rfl, Nat.le_refl _, fun _ hmem _ => hmem⟩

theorem SessionState.Later.trans {a b c : SessionState} (h : a.Later b) (h' : b.Later c) : a.Later c where
  identity := h'.identity.trans h.identity
  lastBinding := Nat.le_trans h.lastBinding h'.lastBinding
  bindings held hmem hle := h.bindings held (h'.bindings held hmem (Nat.le_trans hle h.lastBinding)) hle

theorem SessionState.later_keep (session : SessionState) (bindings : List Binding)
    (h : bindings.Sublist session.bindings) : session.Later (session.keep bindings h) :=
  ⟨rfl, Nat.le_refl _, fun _ hmem _ => h.subset hmem⟩

theorem SessionState.later_push (session : SessionState) (id : Int) (catalogue : Nat) (address : Address)
    (h : ∀ held ∈ session.bindings, held.address ≠ address) :
    session.Later (session.push id catalogue address h) := by
  refine ⟨rfl, Nat.le_succ _, fun held hmem hle => ?_⟩
  rcases List.mem_append.mp hmem with hmem | hlast
  · exact hmem
  · rw [List.mem_singleton.mp hlast] at hle
    exact absurd hle (Nat.not_succ_le_self _)

theorem SessionState.later_singles (session : SessionState) (singles : List (Int × Address)) :
    session.Later {session with singles} :=
  ⟨rfl, Nat.le_refl _, fun _ hmem _ => hmem⟩

/-- What is there of a session's state, and later. -/
def After (before after : Option SessionState) : Prop :=
  ∀ session, before = some session → ∃ later, after = some later ∧ session.Later later

theorem After.refl (session : Option SessionState) : After session session :=
  fun held h => ⟨held, h, .refl held⟩

theorem After.trans {a b c : Option SessionState} (h : After a b) (h' : After b c) : After a c := by
  intro session hsession
  obtain ⟨later, hlater, hsame⟩ := h session hsession
  obtain ⟨last, hlast, hsame'⟩ := h' later hlater
  exact ⟨last, hlast, hsame.trans hsame'⟩

/-- The sessions of a thread, and later: as many, each the same session. -/
def Kept (s t : State μ) : Prop := List.Forall₂ After s.sessions t.sessions

theorem Kept.refl (s : State μ) : Kept s s := List.forall₂_same.mpr fun session _ => .refl session

theorem Kept.of_sessions (h : t.sessions = s.sessions) : Kept s t := by
  rw [Kept, h]
  exact Kept.refl s

theorem Kept.trans (h : Kept s t) (h' : Kept t u) : Kept s u := by
  unfold Kept at *
  generalize s.sessions = a at h
  generalize t.sessions = b at h h'
  generalize u.sessions = c at h'
  induction h generalizing c with
  | nil => exact h'
  | cons hhead _ ih =>
    cases h' with
    | cons hhead' htail' => exact .cons (hhead.trans hhead') (ih _ htail')

/-- The current session later, where it had a state. -/
theorem Kept.peek (h : Kept s t) {session : SessionState} (hpeek : s.peek = some session) :
    ∃ later, t.peek = some later ∧ session.Later later := by
  unfold Kept at h
  unfold State.peek at *
  generalize s.sessions = before at *
  generalize t.sessions = after at *
  cases h with
  | nil => cases hpeek
  | cons hhead _ => exact hhead session hpeek

/-! ### One operation -/

theorem kept_put {session later : SessionState} (h : s.current = .ok session) (hlater : session.Later later) :
    Kept s (s.put later) := by
  unfold Kept
  unfold State.current at h
  unfold State.put
  cases hsessions : s.sessions with
  | nil => simp [hsessions] at h
  | cons head rest =>
    simp only [hsessions, Except.ok.injEq] at h
    refine .cons ?_ (List.forall₂_same.mpr fun session _ => .refl session)
    rintro _ rfl
    subst h
    exact ⟨later, rfl, hlater⟩

theorem bind_kept (registered : List (SubscriptionCatalogue μ)) (id : Int) (address : Address) (s : State μ) :
    Kept s (bindSubscriptions registered id address s).2 := by
  unfold bindSubscriptions
  split
  · exact .refl s
  · rename_i session hsession
    have hsame := kept_put hsession (.refl session)
    split
    · exact hsame
    · split
      · exact hsame
      · split
        · exact hsame
        · split
          · split
            · exact hsame
            · exact kept_put hsession (session.later_push ..)
          · exact hsame

theorem unbind_kept (registered : List (SubscriptionCatalogue μ)) (id : Int) (address : Address) (s : State μ) :
    Kept s (unbindSubscriptions registered id address s).2 := by
  unfold unbindSubscriptions
  split
  · exact .refl s
  · rename_i session hsession
    split
    · exact kept_put hsession (.refl session)
    · split
      · exact kept_put hsession (session.later_keep ..)
      · exact kept_put hsession (.refl session)

theorem release_kept (id : Int) (address : Address) (s : State μ) : Kept s (releaseBindings id address s) := by
  unfold Kept releaseBindings
  rw [List.forall₂_map_right_iff]
  refine List.forall₂_same.mpr fun held _ => ?_
  rintro session rfl
  exact ⟨_, rfl, session.later_keep ..⟩

theorem single_kept (catalogue : SubscriptionCatalogue μ) (s : State μ) :
    Kept s (singleInstanceOf catalogue s).2 := by
  unfold singleInstanceOf
  split
  · exact .refl s
  · rename_i session hsession
    have hsame := kept_put hsession (.refl session)
    split
    · exact hsame
    · split
      · exact hsame
      · split
        · exact hsame
        · exact (kept_put hsession (session.later_singles _)).trans (.of_sessions rfl)

theorem singles_kept (s : State μ) : Kept s (releaseSingles s) := by
  unfold releaseSingles
  split
  · exact .refl s
  · rename_i session hpeek
    have hcurrent : s.current = .ok session := by
      unfold State.peek at hpeek
      unfold State.current
      cases hsessions : s.sessions with
      | nil => simp [hsessions] at hpeek
      | cons head rest =>
        simp only [hsessions, List.head?_cons, Option.join_some] at hpeek
        simp [hpeek]
    exact kept_put hcurrent (session.later_singles _)

theorem make_kept (catalogue : SubscriptionCatalogue μ) (s : State μ) : Kept s (makeSubscriber catalogue s).2 := by
  unfold makeSubscriber
  split
  · exact .refl s
  · split
    · exact .refl s
    · exact .of_sessions rfl

theorem free_kept (catalogue : SubscriptionCatalogue μ) (address : Address) (s : State μ) :
    Kept s (freeSubscriber catalogue address s) := by
  unfold freeSubscriber
  induction catalogue.free address generalizing s with
  | nil => exact .refl s
  | cons gone rest ih => exact (release_kept gone.1 gone.2 s).trans (ih _)

/-! ### Programs -/

/-- What runs keeps the sessions. -/
def Keeps {α : Type} (run : Run μ α) : Prop := ∀ s result t, run s = some (result, t) → Kept s t

theorem perform_keeps {registered : List (SubscriptionCatalogue μ)} {raise : Event → Run μ Unit}
    (hraise : ∀ event, Keeps (raise event)) (program : Program μ) : Keeps (perform registered raise program) := by
  induction program with
  | done result =>
    rintro s _ t ⟨⟩
    exact .refl s
  | read next ih => exact fun s result t h => ih s.memory s result t h
  | write memory next ih =>
    intro s result t h
    have hwritten : Kept s {s with memory} := .of_sessions rfl
    exact hwritten.trans (ih _ result t h)
  | bind id address next ih => exact fun s result t h => (bind_kept registered id address s).trans (ih _ _ result t h)
  | unbind id address next ih =>
    exact fun s result t h => (unbind_kept registered id address s).trans (ih _ _ result t h)
  | destroy id address next ih => exact fun s result t h => (release_kept id address s).trans (ih _ result t h)
  | releaseSingles next ih => exact fun s result t h => (singles_kept s).trans (ih _ result t h)
  | session body next ihbody ih =>
    intro s result t h
    rw [perform] at h
    split at h
    · cases h
    · rename_i result' u hbody
      have hopened := ihbody _ _ _ hbody
      have hclosed : Kept s {u with sessions := u.sessions.tail} := by
        unfold Kept at *
        cases hu : u.sessions with
        | nil =>
          rw [hu] at hopened
          cases hopened
        | cons head rest =>
          rw [hu] at hopened
          cases hopened with
          | cons _ hrest => exact hrest
      exact hclosed.trans (ih _ _ result t h)
  | raise event next ih =>
    intro s result t h
    rw [perform] at h
    split at h
    · cases h
    · rename_i result' u hevent
      exact (hraise event s _ _ hevent).trans (ih _ _ result t h)

/-! ### Dispatch -/

section Dispatch
variable {run : Program μ → Run μ Unit} {event : Event}

/-- What a part of a dispatch keeps. -/
def PartKeeps {α : Type} (part : State μ → Part μ α) : Prop :=
  ∀ s result parts t, part s = some (result, parts, t) → Kept s t

theorem invokeEach_keeps (hrun : ∀ program, Keeps (run program)) {invoke : Address → Program μ} {isolated : Bool}
    {owner : Option Nat} (instances : List Invocation) : PartKeeps (invokeEach run invoke isolated owner instances) := by
  induction instances with
  | nil =>
    rintro s _ _ t ⟨⟩
    exact .refl s
  | cons held instances ih =>
    intro s result taken t h
    rw [invokeEach] at h
    split at h
    · split at h
      · cases h
      · rename_i result' s' hinvoke
        have hkept := hrun _ _ _ _ hinvoke
        split at h
        · cases h
          exact hkept
        · obtain ⟨⟨result'', taken', t'⟩, hrest, heq⟩ := Option.map_eq_some_iff.mp h
          cases heq
          exact hkept.trans (ih _ _ _ _ hrest)
    · obtain ⟨⟨result'', taken', t'⟩, hrest, heq⟩ := Option.map_eq_some_iff.mp h
      cases heq
      exact ih _ _ _ _ hrest

theorem invokeBound_keeps (hrun : ∀ program, Keeps (run program)) {catalogue : SubscriptionCatalogue μ}
    {subscription : Subscription μ} {owner : Option Nat} (instances : List Invocation) :
    PartKeeps (invokeBound run catalogue subscription event owner instances) := by
  intro s result taken t h
  unfold invokeBound at h
  split at h
  · cases h
    exact .refl s
  · split at h
    · cases h
      exact .refl s
    · exact invokeEach_keeps hrun _ _ _ _ _ h

theorem takeTurn_keeps (hrun : ∀ program, Keeps (run program)) (catalogue : SubscriptionCatalogue μ) (place : Nat)
    (subscription : Subscription μ) : PartKeeps (takeTurn run catalogue place subscription event) := by
  intro s result taken t h
  unfold takeTurn at h
  split at h
  · exact invokeBound_keeps hrun _ _ _ _ _ h
  · split at h
    · have hsingle := single_kept catalogue s
      split at h
      · rename_i heq
        cases h
        rwa [heq] at hsingle
      · rename_i heq
        rw [heq] at hsingle
        exact hsingle.trans (invokeBound_keeps hrun _ _ _ _ _ h)
    · have hmade := make_kept catalogue s
      split at h
      · rename_i heq
        cases h
        rwa [heq] at hmade
      · rename_i heq
        rw [heq] at hmade
        obtain ⟨⟨result', taken', u⟩, hrest, hfreed⟩ := Option.map_eq_some_iff.mp h
        cases hfreed
        exact (hmade.trans (invokeBound_keeps hrun _ _ _ _ _ hrest)).trans (free_kept ..)

theorem dispatchEach_keeps (hrun : ∀ program, Keeps (run program))
    (places : List (SubscriptionCatalogue μ × Nat × Subscription μ)) : PartKeeps (dispatchEach run event places) := by
  induction places with
  | nil =>
    rintro s _ _ t ⟨⟩
    exact .refl s
  | cons place rest ih =>
    obtain ⟨catalogue, place, subscription⟩ := place
    intro s result turns t h
    rw [dispatchEach] at h
    split at h
    · split at h
      · cases h
      · rename_i hturn
        cases h
        exact takeTurn_keeps hrun _ _ _ _ _ _ _ hturn
      · rename_i hturn
        obtain ⟨⟨result', turns', u⟩, hrest, heq⟩ := Option.map_eq_some_iff.mp h
        cases heq
        exact (takeTurn_keeps hrun _ _ _ _ _ _ _ hturn).trans (ih _ _ _ _ hrest)
    · exact ih _ _ _ _ h

end Dispatch

/-- Whatever events are raised, to any depth. -/
theorem raise_keeps (registered : List (SubscriptionCatalogue μ)) (depth : Nat) (event : Event) :
    PartKeeps (raiseWithin registered depth event) := by
  induction depth generalizing event with
  | zero => exact nofun
  | succ depth ih =>
    refine dispatchEach_keeps (fun program => perform_keeps (fun event s result t h => ?_) program) _
    obtain ⟨⟨result', turns, u⟩, hraise, heq⟩ := Option.map_eq_some_iff.mp h
    cases heq
    exact ih event _ _ _ _ hraise

end Agiru.Events
