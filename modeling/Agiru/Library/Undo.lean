import Mathlib.Data.List.Basic
import Mathlib.Logic.Relation

/-! Transactions as logs of what they did.

The log of a transaction holds its effects, the newest first, and a mark for each
savepoint. Rolling back to a savepoint forgets what is newer than its mark; releasing it
forgets the marks from it on, and keeps the effects. What an effect needs of the effects
before it (`Sound`) it therefore keeps: whatever undoes the one undoes the other.

`Reachable` is a state of some run of a step relation, from a state in which runs
start. -/
namespace Undo

inductive Entry (ε : Type)
  | savepoint
  | effect (e : ε)
  deriving DecidableEq

variable {ε : Type}

abbrev Log (ε : Type) := List (Entry ε)

/-- The effects of a log, the newest first. -/
def done : Log ε → List ε
  | [] => []
  | .savepoint :: log => done log
  | .effect e :: log => e :: done log

/-- Rolled back to its newest savepoint, which is forgotten too. -/
def undo : Log ε → Log ε
  | [] => []
  | .savepoint :: log => log
  | .effect _ :: log => undo log

/-- Its newest savepoint released. -/
def release : Log ε → Log ε
  | [] => []
  | .savepoint :: log => log
  | .effect e :: log => .effect e :: release log

@[simp] theorem done_savepoint (log : Log ε) : done (.savepoint :: log) = done log := rfl

@[simp] theorem done_effect (e : ε) (log : Log ε) : done (.effect e :: log) = e :: done log := rfl

theorem done_suffix {log log' : Log ε} (h : log' <:+ log) : done log' <:+ done log := by
  obtain ⟨newer, rfl⟩ := h
  induction newer with
  | nil => exact List.suffix_refl _
  | cons entry newer ih =>
    cases entry with
    | savepoint => exact ih
    | effect e => exact ih.trans (List.suffix_cons _ _)

theorem undo_suffix (log : Log ε) : undo log <:+ log := by
  induction log with
  | nil => exact List.suffix_refl _
  | cons entry log ih =>
    cases entry with
    | savepoint => exact List.suffix_cons _ _
    | effect e => exact ih.trans (List.suffix_cons _ _)

@[simp] theorem done_release (log : Log ε) : done (release log) = done log := by
  induction log with
  | nil => rfl
  | cons entry log ih =>
    cases entry with
    | savepoint => rfl
    | effect e => rw [release, done_effect, done_effect, ih]

theorem done_release_suffix (log : Log ε) : done (release log) <:+ done log :=
  ⟨[], done_release log⟩

/-- Every effect has what it needs of the effects before it. -/
def Sound (needs : ε → List ε → Prop) : List ε → Prop
  | [] => True
  | e :: before => needs e before ∧ Sound needs before

theorem Sound.suffix {needs : ε → List ε → Prop} {effects effects' : List ε}
    (h : Sound needs effects) (hsuffix : effects' <:+ effects) : Sound needs effects' := by
  obtain ⟨newer, rfl⟩ := hsuffix
  induction newer with
  | nil => exact h
  | cons e newer ih => exact ih h.2

theorem Sound.mono_of_mem {needs needs' : ε → List ε → Prop} {effects : List ε}
    (h : Sound needs effects) (hneeds : ∀ e before, e ∈ effects → needs e before → needs' e before) :
    Sound needs' effects := by
  induction effects with
  | nil => trivial
  | cons e before ih =>
    refine ⟨hneeds e before (List.mem_cons_self ..) h.1, ih h.2 fun e' before' hmem => ?_⟩
    exact hneeds e' before' (List.mem_cons_of_mem _ hmem)

theorem Sound.mono {needs needs' : ε → List ε → Prop}
    (hneeds : ∀ e before, needs e before → needs' e before) {effects : List ε}
    (h : Sound needs effects) : Sound needs' effects :=
  h.mono_of_mem fun e before _ => hneeds e before

/-- What an effect needs is there, and stays while the effect does. -/
theorem Sound.needs_of_mem {needs : ε → List ε → Prop} {effects : List ε} (h : Sound needs effects)
    {e : ε} (he : e ∈ effects) : ∃ before, before <:+ effects ∧ needs e before := by
  induction effects with
  | nil => cases he
  | cons newest effects ih =>
    rcases List.mem_cons.mp he with rfl | he
    · exact ⟨effects, List.suffix_cons _ _, h.1⟩
    · obtain ⟨before, hsuffix, hneeds⟩ := ih h.2 he
      exact ⟨before, hsuffix.trans (List.suffix_cons _ _), hneeds⟩

/-! ### Runs -/

section Runs
variable {σ : Type}

/-- A state of a run. -/
def Reachable (start : σ → Prop) (step : σ → σ → Prop) (s : σ) : Prop :=
  ∃ first, start first ∧ Relation.ReflTransGen step first s

theorem Reachable.step {start : σ → Prop} {step : σ → σ → Prop} {s t : σ}
    (h : Reachable start step s) (hstep : step s t) : Reachable start step t := by
  obtain ⟨first, hfirst, hrun⟩ := h
  exact ⟨first, hfirst, hrun.tail hstep⟩

/-- What holds at the start and is kept by every step holds in every run. -/
theorem Reachable.invariant {start : σ → Prop} {step : σ → σ → Prop} {I : σ → Prop}
    (hstart : ∀ s, start s → I s) (hstep : ∀ s t, I s → step s t → I t) {s : σ}
    (h : Reachable start step s) : I s := by
  obtain ⟨first, hfirst, hrun⟩ := h
  induction hrun with
  | refl => exact hstart _ hfirst
  | tail _ hlast ih => exact hstep _ _ ih hlast

end Runs

end Undo

/-! ### Transaction blocks and savepoints, as a database server keeps them for one
session.

Inside a block the server keeps a stack of savepoints, outermost first, each a
name and the contents when it was taken. Rolling back to a savepoint restores its
contents and drops the savepoints after it, keeping the savepoint itself; releasing
it drops it and those after it and keeps the contents. Outside a block every write
commits on its own. A refused statement fails the block, and only a rollback to a
savepoint, or the block's end, leaves that state.

`named` finds the last savepoint of a name. On a stack whose names are distinct,
`named_at` says which one that is. -/
namespace Savepoints

inductive Statement (ν : Type)
  | begin
  | commit
  | savepoint (name : ν)
  | rollbackTo (name : ν)
  | release (name : ν)
  deriving Repr, DecidableEq

structure Server (ν δ : Type) where
  /-- The contents the session sees. -/
  data : δ
  /-- The contents that survive the session. -/
  committed : δ
  inTransaction : Bool := false
  failed : Bool := false
  savepoints : List (ν × δ) := []

variable {ν δ : Type} [DecidableEq ν]

/-- The last savepoint of a name: the savepoints before it, and its contents. -/
def named (name : ν) : List (ν × δ) → Option (List (ν × δ) × δ)
  | [] => none
  | (other, kept) :: rest =>
    match named name rest with
    | some (before, found) => some ((other, kept) :: before, found)
    | none => if other = name then some ([], kept) else none

/-- One statement; `none` is the server's refusal. -/
def execute (st : Statement ν) (s : Server ν δ) : Option (Server ν δ) :=
  match st with
  | .begin => if s.failed then none else some {s with inTransaction := true}
  | .commit =>
    let kept := if s.failed then s.committed else s.data
    some ⟨kept, kept, false, false, []⟩
  | .savepoint name =>
    if s.inTransaction && !s.failed then
      some {s with savepoints := s.savepoints ++ [(name, s.data)]}
    else none
  | .rollbackTo name =>
    if s.inTransaction then
      (named name s.savepoints).map fun (before, kept) =>
        {s with data := kept, failed := false, savepoints := before ++ [(name, kept)]}
    else none
  | .release name =>
    if s.inTransaction && !s.failed then
      (named name s.savepoints).map fun (before, _) => {s with savepoints := before}
    else none

/-- What a refused statement leaves: a block, once open, has failed. -/
def refuse (s : Server ν δ) : Server ν δ := {s with failed := s.inTransaction}

/-- A statement that writes. -/
def write (f : δ → δ) (s : Server ν δ) : Server ν δ :=
  {s with data := f s.data, committed := if s.inTransaction then s.committed else f s.data}

/-! ### Finding a savepoint -/

theorem named_eq_none {name : ν} {stack : List (ν × δ)} (h : name ∉ stack.map Prod.fst) :
    named name stack = none := by
  induction stack with
  | nil => rfl
  | cons top rest ih =>
    obtain ⟨other, kept⟩ := top
    simp only [List.map_cons, List.mem_cons, not_or] at h
    have hne : other ≠ name := fun he => h.1 he.symm
    simp [named, ih h.2, hne]

theorem named_append {name : ν} {kept : δ} {before after : List (ν × δ)}
    (h : name ∉ after.map Prod.fst) :
    named name (before ++ (name, kept) :: after) = some (before, kept) := by
  induction before with
  | nil => simp [named, named_eq_none h]
  | cons top rest ih =>
    obtain ⟨other, held⟩ := top
    simp [named, ih]

/-- With distinct names, the savepoint at a position is the one its name finds. -/
theorem named_at {stack : List (ν × δ)} (hd : (stack.map Prod.fst).Nodup) {i : Nat}
    (hi : i < stack.length) : named stack[i].1 stack = some (stack.take i, stack[i].2) := by
  have hsplit : stack.take i ++ (stack[i].1, stack[i].2) :: stack.drop (i + 1) = stack := by
    rw [← List.drop_eq_getElem_cons hi, List.take_append_drop]
  have hfresh : stack[i].1 ∉ (stack.drop (i + 1)).map Prod.fst := by
    rw [← hsplit, List.map_append, List.map_cons] at hd
    exact (List.nodup_cons.mp (List.nodup_append.mp hd).2.1).1
  have hfound : named stack[i].1 (stack.take i ++ (stack[i].1, stack[i].2) :: stack.drop (i + 1)) =
      some (stack.take i, stack[i].2) := named_append hfresh
  rwa [hsplit] at hfound

end Savepoints
