import Agiru.RowWrite.Storage

/-! What the transactions hold.

A transaction's writes to a key follow each other from the row that was committed when it
first wrote to it, and no other transaction writes to the key meanwhile. A row carries a
token that is held only where the holder's own transaction wrote it. -/
namespace Agiru.RowWrite
open Undo

variable {table : Table} {n : Nat} {s : State table n} {i : Fin n}
variable {effects before : List (Effect table)} {key : Key} {w : Write table} {token : Nat}
variable {row : Row table} {j : Fin n}

/-! ### The last write, and the held token -/

@[simp] theorem lastWrite_token :
    lastWrite (.token token :: effects) key = lastWrite effects key := rfl

theorem lastWrite_self : lastWrite (.write w :: effects) w.key = some w := by
  simp [lastWrite, Effect.writeTo]

theorem lastWrite_other (h : w.key ≠ key) :
    lastWrite (.write w :: effects) key = lastWrite effects key := by
  simp [lastWrite, Effect.writeTo, h]

@[simp] theorem heldToken_token : heldToken (.token token :: effects) = some token := rfl

@[simp] theorem heldToken_write : heldToken (.write w :: effects) = heldToken effects := rfl

theorem lastWrite_mem (h : lastWrite effects key = some w) : .write w ∈ effects ∧ w.key = key := by
  obtain ⟨e, hmem, he⟩ := List.exists_of_findSome?_eq_some h
  cases e with
  | token t => cases he
  | write w' =>
    simp only [Effect.writeTo, Option.ite_none_right_eq_some, Option.some.injEq] at he
    obtain ⟨hkey, rfl⟩ := he
    exact ⟨hmem, hkey⟩

theorem lastWrite_eq_none :
    lastWrite effects key = none ↔ ∀ w, .write w ∈ effects → w.key ≠ key := by
  rw [lastWrite, List.findSome?_eq_none_iff]
  constructor
  · intro h w hw hkey
    have hnone := h _ hw
    rw [Effect.writeTo, if_pos hkey] at hnone
    cases hnone
  · intro h e he
    cases e with
    | token t => rfl
    | write w => exact if_neg (h w he)

theorem lastWrite_suffix (h : lastWrite effects key = none) (hsuffix : before <:+ effects) :
    lastWrite before key = none :=
  lastWrite_eq_none.mpr fun w hw => lastWrite_eq_none.mp h w (hsuffix.subset hw)

/-! ### What an effect needs of those before it -/

/-- The first write to a key is made over the committed row, with its version; each other one
over the row that the transaction's last write to the key left. -/
structure Follows (committed : Key → Option (Row table)) (before : List (Effect table))
    (w : Write table) : Prop where
  first : lastWrite before w.key = none → w.found = committed w.key ∧
    ∀ version, w.observed = some version → ∃ row, w.found = some row ∧ row.version = version
  next : ∀ own, lastWrite before w.key = some own → w.found = own.after
  moved : w.observed = none → w.found = none

/-- The row that a write leaves has an issued version, and carries the held token. -/
def Carries (s : State table n) (held : Option Nat) (key : Key) (row : Row table) : Prop :=
  row.key = key ∧ row.version ∈ s.issued ∧ row.owner = held ∧ held.isSome

def needs (s : State table n) : Effect table → List (Effect table) → Prop
  | .token token, before => token ∈ s.drawn ∧ heldToken before = none
  | .write w, before => Follows s.committed before w ∧
    ∀ row, w.after = some row → Carries s (heldToken before) w.key row

/-- A committed row carries no token that is held. -/
structure RowOk (s : State table n) (key : Key) (row : Row table) : Prop where
  key : row.key = key
  issued : row.version ∈ s.issued
  drawn : ∀ token, row.owner = some token → token ∈ s.drawn
  ended : ∀ token i, row.owner = some token → heldToken (s.effects i) ≠ some token

structure Inv (s : State table n) : Prop where
  sound : ∀ i, Sound (needs s) (s.effects i)
  apart : ∀ i j key, i ≠ j → lastWrite (s.effects i) key ≠ none → lastWrite (s.effects j) key = none
  tokens : ∀ i j token, i ≠ j → heldToken (s.effects i) = some token →
    heldToken (s.effects j) ≠ some token
  committed : ∀ key row, s.committed key = some row → RowOk s key row

theorem heldToken_suffix (h : Sound (needs s) effects) (hsuffix : before <:+ effects)
    (hheld : heldToken before = some token) : heldToken effects = some token := by
  obtain ⟨newer, rfl⟩ := hsuffix
  induction newer with
  | nil => exact hheld
  | cons e newer ih =>
    have hbefore := ih h.2
    cases e with
    | token t => exact absurd (h.1.2.symm.trans hbefore) (by simp)
    | write w => exact hbefore

theorem heldToken_drawn (h : Sound (needs s) effects) (hheld : heldToken effects = some token) :
    token ∈ s.drawn := by
  obtain ⟨e, hmem, he⟩ := List.exists_of_findSome?_eq_some hheld
  obtain ⟨before, -, hneeds⟩ := h.needs_of_mem hmem
  cases e with
  | token t =>
    obtain rfl := Option.some.inj he
    exact hneeds.1
  | write w => cases he

theorem Carries.held {held held' : Option Nat}
    (h : Carries s held key row) (hheld : ∀ token, held = some token → held' = some token) :
    Carries s held' key row := by
  obtain ⟨hkey, hissued, howner, hsome⟩ := h
  obtain ⟨token, rfl⟩ := Option.isSome_iff_exists.mp hsome
  have hsame := hheld token rfl
  exact ⟨hkey, hissued, howner.trans hsame.symm, by rw [hsame]; rfl⟩

/-- The row of a transaction's own last write. -/
theorem lastWrite_carries (h : Sound (needs s) effects) (hlast : lastWrite effects key = some w)
    (hrow : w.after = some row) : Carries s (heldToken effects) key row := by
  obtain ⟨hmem, rfl⟩ := lastWrite_mem hlast
  obtain ⟨before, hsuffix, hneeds⟩ := h.needs_of_mem hmem
  exact (hneeds.2 row hrow).held fun token => heldToken_suffix h hsuffix

theorem Inv.row_known (h : Inv s) (hrow : s.row i key = some row) : row.key = key ∧ row.version ∈ s.issued := by
  unfold State.row rowOf at hrow
  split at hrow
  · rename_i w hlast
    have hcarries := lastWrite_carries (h.sound i) hlast hrow
    exact ⟨hcarries.1, hcarries.2.1⟩
  · exact ⟨(h.committed key row hrow).key, (h.committed key row hrow).issued⟩

/-! ### What a step of another session leaves -/

/-- What a transaction's effects rest on is still there. -/
structure Kept (s t : State table n) (effects : List (Effect table)) : Prop where
  issued : s.issued ⊆ t.issued
  drawn : s.drawn ⊆ t.drawn
  committed : ∀ key, lastWrite effects key ≠ none → t.committed key = s.committed key

theorem Kept.sound {t : State table n} (hkept : Kept s t effects) (h : Sound (needs s) effects) :
    Sound (needs t) effects := by
  refine h.mono_of_mem fun e before hmem hneeds => ?_
  cases e with
  | token token => exact ⟨hkept.drawn hneeds.1, hneeds.2⟩
  | write w =>
    have hkey : t.committed w.key = s.committed w.key :=
      hkept.committed w.key fun hnone => lastWrite_eq_none.mp hnone w hmem rfl
    obtain ⟨hfollows, hafter⟩ := hneeds
    refine ⟨⟨fun hnone => ?_, hfollows.next, hfollows.moved⟩, fun row hrow => ?_⟩
    · rw [hkey]
      exact hfollows.first hnone
    · obtain ⟨hown, hissued, howner⟩ := hafter row hrow
      exact ⟨hown, hkept.issued hissued, howner⟩

/-! ### The session that steps -/

section
variable {b : Session table}

theorem effects_put_self : (s.put i b).effects i = done b.log := by
  simp only [State.effects, State.put, Function.update_self]

theorem effects_put_other (hj : j ≠ i) : (s.put i b).effects j = s.effects j := by
  simp only [State.effects, State.put, Function.update_of_ne hj]

/-- The effects of a session that has kept some of its own are among those it had. -/
theorem effects_put_suffix (hb : done b.log <:+ s.effects i) (j : Fin n) :
    (s.put i b).effects j <:+ s.effects j := by
  by_cases hj : j = i
  · subst hj
    rw [effects_put_self]
    exact hb
  · have hsame : (s.put i b).effects j = s.effects j := effects_put_other hj
    exact hsame ▸ List.suffix_refl _

/-- A session undoes effects, or forgets marks. -/
theorem Inv.shrunk (h : Inv s) (hb : done b.log <:+ s.effects i) : Inv (s.put i b) := by
  have hsuffix := effects_put_suffix (s := s) hb
  have hheld (j : Fin n) (token : Nat) (hj : heldToken ((s.put i b).effects j) = some token) :
      heldToken (s.effects j) = some token := heldToken_suffix (h.sound j) (hsuffix j) hj
  refine ⟨fun j => ?_, fun j k key hjk hj => ?_, fun j k token hjk hj hk => ?_, fun key row hrow => ?_⟩
  · exact Kept.sound ⟨fun _ hv => hv, fun _ ht => ht, fun _ _ => rfl⟩ ((h.sound j).suffix (hsuffix j))
  · refine lastWrite_suffix (h.apart j k key hjk fun hnone => hj ?_) (hsuffix k)
    exact lastWrite_suffix hnone (hsuffix j)
  · exact h.tokens j k token hjk (hheld j token hj) (hheld k token hk)
  · obtain ⟨hkey, hissued, hdrawn, hended⟩ := h.committed key row hrow
    exact ⟨hkey, hissued, hdrawn, fun token j howner hj => hended token j howner (hheld j token hj)⟩

end

/-! ### Tokens -/

theorem drew_effects_other {token : Option Nat} (hj : j ≠ i) : (s.drew i token).effects j = s.effects j := by
  unfold State.drew
  split
  · rfl
  · split
    · rfl
    · exact effects_put_other hj

theorem drew_effects (s : State table n) (i : Fin n) (token : Nat) :
    (s.drew i (some token)).effects i = s.effects i ∧ heldToken (s.effects i) = some token ∨
      (s.drew i (some token)).effects i = .token token :: s.effects i := by
  by_cases hheld : heldToken (s.effects i) = some token
  · rw [State.drew, if_pos hheld]
    exact .inl ⟨rfl, hheld⟩
  · rw [State.drew, if_neg hheld]
    exact .inr (effects_put_self (s := s))

@[simp] theorem drew_committed {token : Option Nat} : (s.drew i token).committed = s.committed := by
  unfold State.drew
  split
  · rfl
  · split <;> rfl

@[simp] theorem drew_issued {token : Option Nat} : (s.drew i token).issued = s.issued := by
  unfold State.drew
  split
  · rfl
  · split <;> rfl

theorem drew_drawn {token : Option Nat} : s.drawn ⊆ (s.drew i token).drawn := by
  unfold State.drew
  split
  · exact fun _ ht => ht
  · split
    · exact fun _ ht => ht
    · exact List.subset_cons_self _ _

@[simp] theorem drew_lastWrite {token : Option Nat} (j : Fin n) (key : Key) :
    lastWrite ((s.drew i token).effects j) key = lastWrite (s.effects j) key := by
  by_cases hj : j = i
  · subst hj
    cases token with
    | none => rfl
    | some token =>
      rcases drew_effects s j token with ⟨hsame, -⟩ | hnew
      · rw [hsame]
      · rw [hnew, lastWrite_token]
  · rw [drew_effects_other hj]

@[simp] theorem drew_row {token : Option Nat} (j : Fin n) (key : Key) :
    (s.drew i token).row j key = s.row j key := by
  rw [State.row, State.row, rowOf, rowOf, drew_lastWrite, drew_committed]

theorem drew_held : heldToken ((s.drew i (some token)).effects i) = some token := by
  rcases drew_effects s i token with ⟨hsame, hheld⟩ | hnew
  · rw [hsame, hheld]
  · rw [hnew, heldToken_token]

theorem drew_free {token : Option Nat} (h : s.Free i key) : (s.drew i token).Free i key :=
  fun j hj => (drew_lastWrite j key).trans (h j hj)

theorem Inv.drewNew (h : Inv s) (hnone : heldToken (s.effects i) = none)
    (hfresh : token ∉ s.drawn) : Inv (s.drew i (some token)) := by
  have hown : (s.drew i (some token)).effects i = .token token :: s.effects i := by
    rcases drew_effects s i token with ⟨-, hheld⟩ | hnew
    · exact absurd (hnone.symm.trans hheld) (by simp)
    · exact hnew
  have hdrawn : token ∈ (s.drew i (some token)).drawn := by
    simp [State.drew, hnone]
  have hsound (j : Fin n) : Sound (needs (s.drew i (some token))) (s.effects j) :=
    Kept.sound ⟨by simp, drew_drawn, by simp⟩ (h.sound j)
  -- A new token is no other session's, and on no committed row.
  have hnew (j : Fin n) (hheld : heldToken (s.effects j) = some token) : False :=
    hfresh (heldToken_drawn (h.sound j) hheld)
  refine ⟨fun j => ?_, fun j k key hjk hj => ?_, fun j k t hjk hj hk => ?_, fun key row hrow => ?_⟩
  · by_cases hj : j = i
    · subst hj
      rw [hown]
      exact ⟨⟨hdrawn, hnone⟩, hsound j⟩
    · rw [drew_effects_other hj]
      exact hsound j
  · rw [drew_lastWrite] at hj ⊢
    exact h.apart j k key hjk hj
  · by_cases hji : j = i
    · subst hji
      rw [drew_held, Option.some.injEq] at hj
      rw [drew_effects_other (Ne.symm hjk), ← hj] at hk
      exact hnew k hk
    · rw [drew_effects_other hji] at hj
      by_cases hki : k = i
      · subst hki
        rw [drew_held, Option.some.injEq] at hk
        rw [← hk] at hj
        exact hnew j hj
      · rw [drew_effects_other hki] at hk
        exact h.tokens j k t hjk hj hk
  · rw [drew_committed] at hrow
    obtain ⟨hkey, hissued, hold, hended⟩ := h.committed key row hrow
    refine ⟨hkey, ?_, fun t ht => drew_drawn (hold t ht), fun t j howner hj => ?_⟩
    · rw [drew_issued]
      exact hissued
    · by_cases hji : j = i
      · subst hji
        rw [drew_held, Option.some.injEq] at hj
        exact hfresh (hj ▸ hold t howner)
      · rw [drew_effects_other hji] at hj
        exact hended t j howner hj

theorem Inv.drew (h : Inv s) {token : Option Nat} (htoken : ∀ t, token = some t → s.Returns i t) :
    Inv (s.drew i token) := by
  cases token with
  | none => exact h
  | some token =>
    rcases htoken token rfl with hheld | ⟨hnone, hfresh⟩
    · rw [State.drew, if_pos hheld]
      exact h
    · exact h.drewNew hnone hfresh

/-! ### Writes -/

theorem write_effects_self : (s.write i w).effects i = .write w :: s.effects i := effects_put_self

theorem write_effects_other (hj : j ≠ i) : (s.write i w).effects j = s.effects j :=
  effects_put_other hj

theorem write_issued : s.issued ⊆ (s.write i w).issued := List.subset_append_right _ _

theorem write_held (j : Fin n) :
    heldToken ((s.write i w).effects j) = heldToken (s.effects j) := by
  by_cases hj : j = i
  · subst hj
    rw [write_effects_self, heldToken_write]
  · rw [write_effects_other hj]

theorem write_lastWrite (hkey : w.key ≠ key) (j : Fin n) :
    lastWrite ((s.write i w).effects j) key = lastWrite (s.effects j) key := by
  by_cases hj : j = i
  · subst hj
    rw [write_effects_self, lastWrite_other hkey]
  · rw [write_effects_other hj]

theorem write_row_other (hkey : w.key ≠ key) (j : Fin n) : (s.write i w).row j key = s.row j key := by
  rw [State.row, State.row, rowOf, rowOf, write_lastWrite hkey]
  rfl

theorem write_row_others (hj : j ≠ i) : (s.write i w).row j key = s.row j key := by
  rw [State.row, write_effects_other hj]
  rfl

theorem write_row_self : (s.write i w).row i w.key = w.after := by
  rw [State.row, rowOf, write_effects_self, lastWrite_self]

theorem Inv.write (h : Inv s) (hfree : s.Free i w.key) (hfollows : Follows s.committed (s.effects i) w)
    (hafter : ∀ row, w.after = some row → row.key = w.key ∧ row.owner = heldToken (s.effects i) ∧
      (heldToken (s.effects i)).isSome) : Inv (s.write i w) := by
  have hsound (j : Fin n) : Sound (needs (s.write i w)) (s.effects j) :=
    Kept.sound ⟨write_issued, fun _ ht => ht, fun _ _ => rfl⟩ (h.sound j)
  refine ⟨fun j => ?_, fun j k key hjk hj => ?_, fun j k t hjk hj hk => ?_, fun key row hrow => ?_⟩
  · by_cases hj : j = i
    · subst hj
      rw [write_effects_self]
      refine ⟨⟨hfollows, fun row hrow => ?_⟩, hsound j⟩
      obtain ⟨hkey, howner, hsome⟩ := hafter row hrow
      refine ⟨hkey, ?_, howner, hsome⟩
      simp [State.write, hrow]
    · rw [write_effects_other hj]
      exact hsound j
  · by_cases hkey : w.key = key
    · subst hkey
      -- Of two sessions one is not the writer, and has not written to the key.
      by_cases hji : j = i
      · subst hji
        rw [write_effects_other (Ne.symm hjk)]
        exact hfree k (Ne.symm hjk)
      · rw [write_effects_other hji] at hj
        exact absurd (hfree j hji) hj
    · rw [write_lastWrite hkey] at hj ⊢
      exact h.apart j k key hjk hj
  · rw [write_held] at hj hk
    exact h.tokens j k t hjk hj hk
  · obtain ⟨hkey, hissued, hdrawn, hended⟩ := h.committed key row hrow
    refine ⟨hkey, write_issued hissued, hdrawn, fun t j howner => ?_⟩
    rw [write_held]
    exact hended t j howner

/-! ### Commits -/

theorem Inv.commit (h : Inv s) : Inv {s.put i {} with committed := s.row i} := by
  have hown : ({s.put i {} with committed := s.row i} : State table n).effects i = [] :=
    effects_put_self (s := s) (b := {})
  have hother {j : Fin n} (hj : j ≠ i) :
      ({s.put i {} with committed := s.row i} : State table n).effects j = s.effects j :=
    effects_put_other (s := s) (b := {}) hj
  refine ⟨fun j => ?_, fun j k key hjk hj => ?_, fun j k t hjk hj hk => ?_, fun key row hrow => ?_⟩
  · by_cases hj : j = i
    · subst hj
      rw [hown]
      trivial
    · rw [hother hj]
      refine Kept.sound (s := s) ⟨fun _ hv => hv, fun _ ht => ht, fun key hkey => ?_⟩ (h.sound j)
      -- What another session has written, the one that commits has not.
      show rowOf s.committed (s.effects i) key = s.committed key
      rw [rowOf, h.apart j i key hj hkey]
  · by_cases hji : j = i
    · subst hji
      rw [hown] at hj
      exact absurd rfl hj
    · by_cases hki : k = i
      · subst hki
        rw [hown]
        rfl
      · rw [hother hji] at hj
        rw [hother hki]
        exact h.apart j k key hjk hj
  · by_cases hji : j = i
    · subst hji
      rw [hown] at hj
      cases hj
    · by_cases hki : k = i
      · subst hki
        rw [hown] at hk
        cases hk
      · rw [hother hji] at hj
        rw [hother hki] at hk
        exact h.tokens j k t hjk hj hk
  · obtain ⟨hkey, hissued⟩ := h.row_known (i := i) hrow
    refine ⟨hkey, hissued, fun t howner => ?_, fun t j howner hj => ?_⟩
    · change rowOf s.committed (s.effects i) key = some row at hrow
      unfold rowOf at hrow
      split at hrow
      · rename_i w hlast
        have hcarries := lastWrite_carries (h.sound i) hlast hrow
        exact heldToken_drawn (s := s) (h.sound i) (hcarries.2.2.1.symm.trans howner)
      · exact (h.committed key row hrow).drawn t howner
    · by_cases hji : j = i
      · subst hji
        rw [hown] at hj
        cases hj
      · rw [hother hji] at hj
        change rowOf s.committed (s.effects i) key = some row at hrow
        unfold rowOf at hrow
        split at hrow
        · rename_i w hlast
          have hcarries := lastWrite_carries (h.sound i) hlast hrow
          exact h.tokens i j t (Ne.symm hji) (hcarries.2.2.1.symm.trans howner) hj
        · exact (h.committed key row hrow).ended t j howner hj

end Agiru.RowWrite
