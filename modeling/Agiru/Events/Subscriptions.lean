import Agiru.Library.Bytes

/-! Subscriptions to events, and the sessions that instances are bound in.

A subscriber's procedure is a `Program`: it reads and writes the memory of the process and may
bind, unbind and destroy instances, open sessions and raise events, with what it does next
depending on how each of these ended. Instances are addresses, and an address may be used again. -/
namespace Agiru.Events
open Bytes

/-- An instance of a codeunit; zero is `nullptr`. -/
abbrev Address := Nat

inductive EventObject
  | codeunit | table | page | report | xmlPort | query
  deriving DecidableEq

structure EventArgs where
  names : List Bytes
  values : List Address
  /-- Whether there is a sender. -/
  sender : Bool

/-- What is raised. -/
structure Event where
  kind : EventObject
  objectId : Int
  objectName : Bytes
  event : Bytes
  element : Bytes
  args : EventArgs
  isolated : Bool := false

/-! ### Sessions -/

/-- An instance that is bound, to a catalogue by its place. -/
structure Binding where
  id : Int
  catalogue : Nat
  address : Address
  generation : Nat
  deriving DecidableEq

/-- The bindings of a session: in the order of their generations, and no instance twice. -/
structure SessionState where
  identity : Nat
  bindings : List Binding := []
  lastBinding : Nat := 0
  singles : List (Int × Address) := []
  ascending : bindings.Pairwise (·.generation < ·.generation) := by simp
  counted : ∀ held ∈ bindings, 0 < held.generation ∧ held.generation ≤ lastBinding := by simp
  distinct : bindings.Pairwise (·.address ≠ ·.address) := by simp

namespace SessionState

/-- Some bindings go. -/
def keep (session : SessionState) (bindings : List Binding) (h : bindings.Sublist session.bindings) :
    SessionState :=
  {session with
    bindings
    ascending := session.ascending.sublist h
    counted := fun held hmem => session.counted held (h.subset hmem)
    distinct := session.distinct.sublist h}

/-- `bindings.push_back`, under a generation of its own. -/
def push (session : SessionState) (id : Int) (catalogue : Nat) (address : Address)
    (h : ∀ held ∈ session.bindings, held.address ≠ address) : SessionState :=
  {session with
    bindings := session.bindings ++ [⟨id, catalogue, address, session.lastBinding + 1⟩]
    lastBinding := session.lastBinding + 1
    ascending := by
      refine List.pairwise_append.mpr ⟨session.ascending, List.pairwise_singleton .., fun held hmem last hlast => ?_⟩
      rw [List.mem_singleton.mp hlast]
      exact Nat.lt_succ_of_le (session.counted held hmem).2
    counted := by
      intro held hmem
      rcases List.mem_append.mp hmem with hmem | hlast
      · exact ⟨(session.counted held hmem).1, Nat.le_succ_of_le (session.counted held hmem).2⟩
      · rw [List.mem_singleton.mp hlast]
        exact ⟨Nat.succ_pos _, Nat.le_refl _⟩
    distinct := by
      refine List.pairwise_append.mpr ⟨session.distinct, List.pairwise_singleton .., fun held hmem last hlast => ?_⟩
      rw [List.mem_singleton.mp hlast]
      exact h held hmem}

end SessionState

/-- The sessions of the thread, the current one first, each with its state once it has one. -/
structure State (μ : Type) where
  sessions : List (Option SessionState)
  memory : μ
  /-- How many states of sessions, and how many objects, were made. -/
  states : Nat := 0
  made : Nat := 0

/-! ### Subscribers -/

/-- The code of a subscriber. -/
inductive Program (μ : Type)
  | done (result : Except Bytes Unit)
  | read (next : μ → Program μ)
  | write (memory : μ) (next : Program μ)
  | bind (id : Int) (address : Address) (next : Except Bytes Bool → Program μ)
  | unbind (id : Int) (address : Address) (next : Except Bytes Bool → Program μ)
  | destroy (id : Int) (address : Address) (next : Program μ)
  | releaseSingles (next : Program μ)
  /-- What runs in a session of its own. -/
  | session (body : Program μ) (next : Except Bytes Unit → Program μ)
  | raise (event : Event) (next : Except Bytes Unit → Program μ)

structure Subscription (μ : Type) where
  kind : EventObject
  /-- Zero where only the name is known. -/
  objectId : Int
  objectName : Bytes
  event : Bytes
  element : Bytes
  parameters : List Bytes
  /-- The procedure, on an instance, with the argument of each parameter; `none` is the sender. -/
  invoke : Address → EventArgs → List (Option Nat) → Program μ

structure SubscriptionCatalogue (μ : Type) where
  id : Int
  name : Bytes
  subscriptions : List (Subscription μ)
  manual : Bool
  singleInstance : Bool
  /-- The instance that is made as the so many-th object, if there is one. -/
  factory : Option (Nat → Option Address)
  /-- The codeunits whose instances go when an instance is freed, itself the last. -/
  free : Address → List (Int × Address)

variable {μ : Type}

/-- `Catalogues`: those that were registered, by the id of their codeunit. -/
def catalogues (registered : List (SubscriptionCatalogue μ)) : List (SubscriptionCatalogue μ) :=
  registered.mergeSort fun a b => a.id ≤ b.id

def listens (subscription : Subscription μ) (event : Event) : Bool :=
  subscription.kind = event.kind &&
    (if subscription.objectId ≠ 0 ∧ event.objectId ≠ 0 then decide (subscription.objectId = event.objectId)
      else sameText subscription.objectName event.objectName) &&
    sameText subscription.event event.event && sameText subscription.element event.element

/-- `Bind`: where each parameter of a subscriber finds its argument. -/
def bindParameters (subscription : Subscription μ) (catalogue : SubscriptionCatalogue μ) (args : EventArgs) :
    Except Bytes (List (Option Nat)) :=
  subscription.parameters.mapM fun name =>
    match args.names.findIdx? fun published => sameText published name with
    | some i => .ok (some i)
    | none =>
      if sameText name (ascii "Sender") && args.sender then .ok none
      else .error (ascii "the subscriber " ++ catalogue.name ++ ascii " names a parameter " ++ name ++
        ascii " that the event " ++ subscription.event ++ ascii " does not publish")

/-! ### Binding -/

namespace State

/-- `SessionState::Peek`. -/
def peek (s : State μ) : Option SessionState := s.sessions.head?.join

/-- `SessionState::Current`. -/
def current (s : State μ) : Except Bytes SessionState :=
  match s.sessions with
  | [] => .error (ascii "no session is open on this thread")
  | session :: _ => .ok (session.getD {identity := s.states})

/-- The state of the current session is written. -/
def put (s : State μ) (session : SessionState) : State μ :=
  {s with sessions := some session :: s.sessions.tail, states := s.states + 1}

/-- The bindings of the current session. -/
def bound (s : State μ) : List Binding := (s.peek.map SessionState.bindings).getD []

end State

abbrev maximumBinding : Nat := 2 ^ 64 - 1

def bindSubscriptions (registered : List (SubscriptionCatalogue μ)) (id : Int) (address : Address) (s : State μ) :
    Except Bytes Bool × State μ :=
  match s.current with
  | .error e => (.error e, s)
  | .ok session =>
    match (catalogues registered).zipIdx.find? fun place => place.1.id = id with
    | none => (.ok false, s.put session)
    | some (catalogue, place) =>
      if !catalogue.manual then
        (.error (ascii "BindSubscription requires EventSubscriberInstance Manual"), s.put session)
      else if address = 0 then
        (.error (ascii "BindSubscription requires a live instance"), s.put session)
      else if h : ∀ held ∈ session.bindings, held.address ≠ address then
        if session.lastBinding = maximumBinding then
          (.error (ascii "BindSubscription exhausted this session's binding identities"), s.put session)
        else (.ok true, s.put (session.push id place address h))
      else (.ok false, s.put session)

def unbindSubscriptions (registered : List (SubscriptionCatalogue μ)) (id : Int) (address : Address) (s : State μ) :
    Except Bytes Bool × State μ :=
  match s.current with
  | .error e => (.error e, s)
  | .ok session =>
    if ((catalogues registered).find? fun catalogue => catalogue.id = id).any fun catalogue => !catalogue.manual then
      (.error (ascii "UnbindSubscription requires EventSubscriberInstance Manual"), s.put session)
    else if session.bindings.any fun held => held.address = address && held.id = id then
      (.ok true, s.put (session.keep _ (session.bindings.eraseP_sublist (p := fun held =>
        held.address = address && held.id = id))))
    else (.ok false, s.put session)

/-- `ReleaseBindings`: an instance goes, in every session. -/
def releaseBindings (id : Int) (address : Address) (s : State μ) : State μ :=
  {s with sessions := s.sessions.map (Option.map fun session =>
    session.keep (session.bindings.filter fun held => !(held.id = id && held.address = address))
      List.filter_sublist)}

/-- `SingleInstanceOf`. -/
def singleInstanceOf (catalogue : SubscriptionCatalogue μ) (s : State μ) : Except Bytes Address × State μ :=
  match s.current with
  | .error e => (.error e, s)
  | .ok session =>
    match session.singles.find? fun single => single.1 = catalogue.id with
    | some single => (.ok single.2, s.put session)
    | none =>
      match catalogue.factory with
      | none => (.error (ascii "SingleInstance: invalid factory"), s.put session)
      | some make =>
        match make s.made with
        | none => (.error (ascii "SingleInstance: the factory returned no instance"), s.put session)
        | some address => (.ok address,
            {s.put {session with singles := (catalogue.id, address) :: session.singles} with made := s.made + 1})

/-- `ReleaseSingleInstances`. -/
def releaseSingles (s : State μ) : State μ :=
  match s.peek with
  | none => s
  | some session => s.put {session with singles := []}

def makeSubscriber (catalogue : SubscriptionCatalogue μ) (s : State μ) : Except Bytes Address × State μ :=
  match catalogue.factory with
  | none => (.error (ascii "event subscriber: invalid factory"), s)
  | some make =>
    match make s.made with
    | none => (.error (ascii "event subscriber: the factory returned no instance"), s)
    | some address => (.ok address, {s with made := s.made + 1})

/-- An instance is freed. -/
def freeSubscriber (catalogue : SubscriptionCatalogue μ) (address : Address) (s : State μ) : State μ :=
  (catalogue.free address).foldl (fun s gone => releaseBindings gone.1 gone.2 s) s

/-! ### Dispatch -/

structure Invocation where
  address : Address
  generation : Nat
  deriving DecidableEq

def boundInstances (place : Nat) (s : State μ) : List Invocation :=
  (s.bound.filter fun held => held.catalogue = place).map fun held => ⟨held.address, held.generation⟩

/-- `StillBound`, for the session that had the turn begin. -/
def stillBound (owner : Option Nat) (generation : Nat) (s : State μ) : Bool :=
  generation = 0 ||
    (match s.peek with
      | none => false
      | some session => owner = some session.identity && session.bindings.any fun held => held.generation = generation)

/-- What a program runs to: how it ended and the state then, or nothing where it does not end. -/
abbrev Run (μ α : Type) := State μ → Option (Except Bytes α × State μ)

/-- An instance of a turn, the state when its own turn came, and the state after it. -/
structure Taken (μ : Type) where
  invocation : Invocation
  invoked : Bool
  before : State μ
  after : State μ

/-- The turn of a subscription, the state when it began, and the state after it. -/
structure Turn (μ : Type) where
  catalogue : SubscriptionCatalogue μ
  place : Nat
  subscription : Subscription μ
  start : State μ
  taken : List (Taken μ)
  after : State μ

/-- A part of a dispatch: how it ended, what it did, and the state then. -/
abbrev Part (μ α : Type) := Option (Except Bytes Unit × α × State μ)

/-- The instances of a turn, one after the other. -/
def invokeEach (run : Program μ → Run μ Unit) (invoke : Address → Program μ) (isolated : Bool) (owner : Option Nat) :
    List Invocation → State μ → Part μ (List (Taken μ))
  | [], s => some (.ok (), [], s)
  | held :: instances, s =>
    if stillBound owner held.generation s then
      match run (invoke held.address) s with
      | none => none
      | some (result, t) =>
        -- an isolated subscriber's error goes no further
        match if isolated then .ok () else result with
        | .error e => some (.error e, [⟨held, true, s, t⟩], t)
        | .ok () => (invokeEach run invoke isolated owner instances t).map fun (result, taken, u) =>
          (result, ⟨held, true, s, t⟩ :: taken, u)
    else (invokeEach run invoke isolated owner instances s).map fun (result, taken, u) =>
      (result, ⟨held, false, s, s⟩ :: taken, u)

/-- The turn of a subscription, with its instances. -/
def invokeBound (run : Program μ → Run μ Unit) (catalogue : SubscriptionCatalogue μ) (subscription : Subscription μ)
    (event : Event) (owner : Option Nat) (instances : List Invocation) (s : State μ) : Part μ (List (Taken μ)) :=
  if instances = [] then some (.ok (), [], s)
  else match bindParameters subscription catalogue event.args with
    | .error e => some (.error e, [], s)
    | .ok bound => invokeEach run (fun address => subscription.invoke address event.args bound) event.isolated owner
        instances s

def takeTurn (run : Program μ → Run μ Unit) (catalogue : SubscriptionCatalogue μ) (place : Nat)
    (subscription : Subscription μ) (event : Event) (s : State μ) : Part μ (List (Taken μ)) :=
  let owner := s.peek.map SessionState.identity
  if catalogue.manual then
    invokeBound run catalogue subscription event owner (boundInstances place s) s
  else if catalogue.singleInstance then
    match singleInstanceOf catalogue s with
    | (.error e, t) => some (.error e, [], t)
    | (.ok address, t) => invokeBound run catalogue subscription event owner [⟨address, 0⟩] t
  else
    match makeSubscriber catalogue s with
    | (.error e, t) => some (.error e, [], t)
    | (.ok address, t) =>
      (invokeBound run catalogue subscription event owner [⟨address, 0⟩] t).map fun (result, taken, u) =>
        (result, taken, freeSubscriber catalogue address u)

/-- The subscriptions of the catalogues, in the order of the dispatch. -/
def subscriptions (registered : List (SubscriptionCatalogue μ)) :
    List (SubscriptionCatalogue μ × Nat × Subscription μ) :=
  (catalogues registered).zipIdx.flatMap fun (catalogue, place) =>
    catalogue.subscriptions.map fun subscription => (catalogue, place, subscription)

def dispatchEach (run : Program μ → Run μ Unit) (event : Event) :
    List (SubscriptionCatalogue μ × Nat × Subscription μ) → State μ → Part μ (List (Turn μ))
  | [], s => some (.ok (), [], s)
  | (catalogue, place, subscription) :: rest, s =>
    if listens subscription event then
      match takeTurn run catalogue place subscription event s with
      | none => none
      | some (.error e, taken, t) => some (.error e, [⟨catalogue, place, subscription, s, taken, t⟩], t)
      | some (.ok (), taken, t) => (dispatchEach run event rest t).map fun (result, turns, u) =>
        (result, ⟨catalogue, place, subscription, s, taken, t⟩ :: turns, u)
    else dispatchEach run event rest s

/-- `Dispatch`, with what runs the subscribers' code. -/
def dispatch (registered : List (SubscriptionCatalogue μ)) (run : Program μ → Run μ Unit) (event : Event)
    (s : State μ) : Part μ (List (Turn μ)) :=
  dispatchEach run event (subscriptions registered) s

/-- A program runs, with what raises an event. -/
def perform (registered : List (SubscriptionCatalogue μ)) (raise : Event → Run μ Unit) : Program μ → Run μ Unit
  | .done result, s => some (result, s)
  | .read next, s => perform registered raise (next s.memory) s
  | .write memory next, s => perform registered raise next {s with memory}
  | .bind id address next, s =>
    let (result, t) := bindSubscriptions registered id address s
    perform registered raise (next result) t
  | .unbind id address next, s =>
    let (result, t) := unbindSubscriptions registered id address s
    perform registered raise (next result) t
  | .destroy id address next, s => perform registered raise next (releaseBindings id address s)
  | .releaseSingles next, s => perform registered raise next (releaseSingles s)
  | .session body next, s =>
    match perform registered raise body {s with sessions := none :: s.sessions} with
    | none => none
    | some (result, t) => perform registered raise (next result) {t with sessions := t.sessions.tail}
  | .raise event next, s =>
    match raise event s with
    | none => none
    | some (result, t) => perform registered raise (next result) t

/-- A raise, with events raised within it so many deep. -/
def raiseWithin (registered : List (SubscriptionCatalogue μ)) : Nat → Event → State μ → Part μ (List (Turn μ))
  | 0, _, _ => none
  | depth + 1, event, s =>
    dispatch registered (perform registered fun event s =>
      (raiseWithin registered depth event s).map fun (result, _, t) => (result, t)) event s

end Agiru.Events
