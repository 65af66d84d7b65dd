import Agiru.Library.Bytes

/-! Nested transactions without a server.

A `Nest` is the present and, for each open boundary, the frame a rollback of it goes
back to. A commit gives every boundary above the floor a new frame, the present one,
and leaves those at the floor and below. -/
namespace Agiru.Transaction

variable {δ : Type}

/-- What a rollback restores. -/
structure Frame (δ : Type) where
  data : δ
  inconsistent : List Bytes
  writing : Bool

structure Nest (δ : Type) where
  now : Frame δ
  floor : Nat
  frames : List (Frame δ)

/-- What a program does to its boundaries and its data. -/
inductive Op (δ : Type)
  | opens
  | write (f : δ → δ)
  | mark (table : Bytes) (consistent : Bool)
  | commit
  | release (depth : Nat)
  | rollback (depth : Nat)
  | floor (depth : Nat)

namespace Nest

def depth (n : Nest δ) : Nat := n.frames.length

/-- Whether a commit goes through. -/
def commits (n : Nest δ) : Bool := n.now.inconsistent.isEmpty && n.floor ≤ n.depth

/-- The frame of a boundary that a commit has just opened again. -/
def clean (n : Nest δ) : Frame δ := ⟨n.now.data, [], false⟩

def step : Op δ → Nest δ → Nest δ
  | .opens, n => if n.floor ≤ n.depth then {n with frames := n.frames ++ [n.now]} else n
  | .write f, n => {n with now := {n.now with data := f n.now.data, writing := true}}
  | .mark table consistent, n =>
    {n with now := {n.now with inconsistent :=
      if consistent then n.now.inconsistent.erase table
      else if table ∈ n.now.inconsistent then n.now.inconsistent
      else n.now.inconsistent ++ [table]}}
  | .commit, n =>
    if n.commits then
      {n with
        now := n.clean
        frames := n.frames.take n.floor ++ List.replicate (n.depth - n.floor) n.clean}
    else n
  | .release depth, n =>
    if depth = 0 ∨ n.depth < depth then n else {n with frames := n.frames.take (depth - 1)}
  | .rollback depth, n =>
    if depth = 0 then n else
    match n.frames[depth - 1]? with
    | none => n
    | some frame => {n with now := frame, frames := n.frames.take (depth - 1)}
  | .floor depth, n => {n with floor := depth}

def run (n : Nest δ) : List (Op δ) → Nest δ
  | [] => n
  | op :: rest => (n.step op).run rest

/-- The frame of the last commit that goes through in a run, else the one given. -/
def lastCommit (held : Frame δ) (n : Nest δ) : List (Op δ) → Frame δ
  | [] => held
  | .commit :: rest => (n.step .commit).lastCommit (if n.commits then n.clean else held) rest
  | op :: rest => (n.step op).lastCommit held rest

end Nest

def Op.movesFloor : Op δ → Bool
  | .floor _ => true
  | _ => false

/-- An operation that neither releases nor rolls back a boundary up to a depth: the
boundaries that stand there stay open. -/
def Op.Above (depth : Nat) : Op δ → Prop
  | .release d | .rollback d => depth < d
  | _ => True

namespace Nest

theorem floor_step {op : Op δ} (h : op.movesFloor = false) (n : Nest δ) :
    (n.step op).floor = n.floor := by
  cases op with
  | floor depth => cases h
  | _ => simp only [step] <;> (repeat' split) <;> rfl

theorem floor_run {ops : List (Op δ)} (h : ∀ op ∈ ops, op.movesFloor = false) (n : Nest δ) :
    (n.run ops).floor = n.floor := by
  induction ops generalizing n with
  | nil => rfl
  | cons op rest ih =>
    exact (ih (fun o ho => h o (List.mem_cons_of_mem _ ho)) _).trans
      (floor_step (h op List.mem_cons_self) n)

/-- A step above a depth keeps a frame there, or a commit renews it. -/
theorem frame_step {n : Nest δ} {op : Op δ} {i : Nat} {frame : Frame δ} (ho : op.Above (i + 1))
    (hi : n.frames[i]? = some frame) (hc : op = .commit → n.commits = true → i < n.floor) :
    (n.step op).frames[i]? = some frame := by
  obtain ⟨hlt, -⟩ := List.getElem?_eq_some_iff.mp hi
  cases op with
  | opens =>
    simp only [step]
    split
    · rw [List.getElem?_append_left hlt, hi]
    · exact hi
  | write f | mark table consistent => exact hi
  | commit =>
    simp only [step]
    split
    · next hgo =>
      have hbelow := hc rfl hgo
      rw [List.getElem?_append_left (by simp; omega), List.getElem?_take, if_pos hbelow, hi]
    · exact hi
  | release d =>
    have hd : i + 1 < d := ho
    simp only [step]
    split
    · exact hi
    · rw [List.getElem?_take, if_pos (by omega), hi]
  | rollback d =>
    have hd : i + 1 < d := ho
    simp only [step, show d ≠ 0 by omega, if_false]
    split
    · exact hi
    · rw [List.getElem?_take, if_pos (by omega), hi]
  | floor depth => exact hi

theorem frame_commit {n : Nest δ} {i : Nat} (hi : i < n.depth) (hf : n.floor ≤ i)
    (hc : n.commits = true) : (n.step .commit).frames[i]? = some n.clean := by
  have hdepth : n.depth = n.frames.length := rfl
  have hlen : (n.frames.take n.floor).length = n.floor := by
    rw [List.length_take]
    omega
  rw [step, if_pos hc, List.getElem?_append_right (by omega), hlen, List.getElem?_replicate, if_pos (by omega)]

theorem depth_commit (n : Nest δ) : (n.step .commit).depth = n.depth := by
  rw [step]
  split
  · next hc =>
    have hf : n.floor ≤ n.frames.length := of_decide_eq_true (Bool.and_eq_true_iff.mp hc).2
    simp only [depth, List.length_append, List.length_take, List.length_replicate]
    omega
  · rfl

/-- A boundary stays open through a run above it. -/
theorem depth_run {n : Nest δ} {i : Nat} {ops : List (Op δ)} (hops : ∀ op ∈ ops, op.Above (i + 1))
    (hi : i < n.depth) : i < (n.run ops).depth := by
  induction ops generalizing n with
  | nil => exact hi
  | cons op rest ih =>
    refine ih (fun o ho => hops o (List.mem_cons_of_mem _ ho)) ?_
    have hop := hops op List.mem_cons_self
    cases op with
    | commit => rwa [depth_commit]
    | _ =>
      have hframe := frame_step hop (List.getElem?_eq_getElem hi) (by simp)
      exact (List.getElem?_eq_some_iff.mp hframe).1

/-- A run keeps the floor at or under a bound of the floors it sets. -/
theorem floor_run_le {n : Nest δ} {k : Nat} {ops : List (Op δ)} (hn : n.floor ≤ k)
    (hops : ∀ depth, .floor depth ∈ ops → depth ≤ k) : (n.run ops).floor ≤ k := by
  induction ops generalizing n with
  | nil => exact hn
  | cons op rest ih =>
    refine ih ?_ fun d hd => hops d (List.mem_cons_of_mem _ hd)
    cases op with
    | floor depth => exact hops depth List.mem_cons_self
    | _ => rwa [floor_step rfl]

/-- A boundary above every floor of a run holds the frame of the last commit since it
was opened. -/
theorem frame_run {n : Nest δ} {i : Nat} {frame : Frame δ} {ops : List (Op δ)}
    (hops : ∀ op ∈ ops, op.Above (i + 1)) (hi : n.frames[i]? = some frame) (hf : n.floor ≤ i)
    (hfloors : ∀ depth, .floor depth ∈ ops → depth ≤ i) :
    (n.run ops).frames[i]? = some (n.lastCommit frame ops) := by
  induction ops generalizing n frame with
  | nil => exact hi
  | cons op rest ih =>
    have hrest : ∀ op ∈ rest, op.Above (i + 1) := fun o ho => hops o (List.mem_cons_of_mem _ ho)
    have hlater : ∀ depth, .floor depth ∈ rest → depth ≤ i := fun d hd =>
      hfloors d (List.mem_cons_of_mem _ hd)
    have hop := hops op List.mem_cons_self
    cases op with
    | commit =>
      refine ih hrest ?_ (by rwa [floor_step rfl]) hlater
      split
      · next hc => exact frame_commit (List.getElem?_eq_some_iff.mp hi).1 hf hc
      · next hc => exact frame_step hop hi fun _ hgo => absurd hgo hc
    | floor depth => exact ih hrest hi (hfloors depth List.mem_cons_self) hlater
    | _ => exact ih hrest (frame_step hop hi (by simp)) (by rwa [floor_step rfl]) hlater

/-- A boundary at the floor or below holds its frame whatever is committed. -/
theorem frame_run_floor {n : Nest δ} {i : Nat} {frame : Frame δ} {ops : List (Op δ)}
    (hops : ∀ op ∈ ops, op.Above (i + 1)) (hfixed : ∀ op ∈ ops, op.movesFloor = false)
    (hi : n.frames[i]? = some frame) (hf : i < n.floor) :
    (n.run ops).frames[i]? = some frame := by
  induction ops generalizing n with
  | nil => exact hi
  | cons op rest ih =>
    refine ih (fun o ho => hops o (List.mem_cons_of_mem _ ho))
      (fun o ho => hfixed o (List.mem_cons_of_mem _ ho))
      (frame_step (hops op List.mem_cons_self) hi fun _ _ => hf) ?_
    rwa [floor_step (hfixed op List.mem_cons_self)]

theorem step_rollback {n : Nest δ} {i : Nat} {frame : Frame δ} (hi : n.frames[i]? = some frame) :
    n.step (.rollback (i + 1)) = {n with now := frame, frames := n.frames.take i} := by
  simp [step, hi]

end Nest

end Agiru.Transaction
