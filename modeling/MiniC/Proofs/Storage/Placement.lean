/-
  MiniC.Proofs.Storage.Placement

  **Arrays have room of their own exactly up to four gigabytes.**

  Sizes and addresses are 32-bit words that stay at the largest one.  The
  exact number of bytes of an array is four for each element, whatever a word
  can hold (`Ty.exactSize`), and `extent` adds these up.

    • As long as the base and the extent make at most 2 ^ 32, placing is exact:
      every array stands where those before it end (`place_exact`).  Only the
      end of all arrays may be too large for a word, and then none follows.
    • Ranges that are apart and inside of memory hold no more bytes than memory
      has, so past 2 ^ 32 no layout at all is sound (`Sound.extent_le`).
-/
import Mathlib
import MiniC.Proofs.Lowering.Names

namespace MiniC

open Memory

/-! ## §1. Exact sizes -/

namespace Ty

variable {ty : Ty}

/-- The lengths of an array of arrays, from the outermost on. -/
def lengths : Ty → List Nat
  | .array base n => n :: base.lengths
  | _ => []

/-- An array as it can be declared, or what it is made of: all lengths are
positive, and the innermost elements are single values. -/
def isDeclarable : Ty → Bool
  | .array base n => decide (0 < n) && base.isDeclarable
  | ty => ty.isScalar

/-- The bytes of an array, as an unbounded number. -/
def exactSize (ty : Ty) : Nat := 4 * ty.lengths.prod

/-- The bytes of static storage that a variable takes: only arrays have some. -/
def storage (ty : Ty) : Nat := if ty.isArray then ty.exactSize else 0

theorem exactSize_array (base : Ty) (n : Nat) :
    (Ty.array base n).exactSize = base.exactSize * n := by
  unfold exactSize
  rw [lengths, List.prod_cons]
  ring

/-- What can be declared takes room. -/
theorem exactSize_pos (h : ty.isDeclarable = true) : 0 < ty.exactSize := by
  induction ty with
  | array base n ih =>
    rw [isDeclarable, Bool.and_eq_true, decide_eq_true_eq] at h
    rw [exactSize_array]
    exact Nat.mul_pos (ih h.2) h.1
  | void => cases h
  | int | float | pointer => exact Nat.succ_pos 3

/-- Every size is a multiple of four. -/
theorem dvd_storage (ty : Ty) : 4 ∣ ty.storage := by
  unfold storage exactSize
  split
  · exact Nat.dvd_mul_right 4 _
  · exact Nat.dvd_zero 4

/-- A bound that is applied early does not matter. -/
theorem saturate_mul (m n : Nat) : saturate (saturate m * n) = saturate (m * n) := by
  unfold saturate maxWord
  by_cases hm : m ≤ 0xFFFFFFFF
  · rw [Nat.min_eq_left hm]
  · rcases Nat.eq_zero_or_pos n with rfl | hn
    · rfl
    · -- both products are past the bound
      have hword : 0xFFFFFFFF ≤ 0xFFFFFFFF * n := Nat.le_mul_of_pos_right _ hn
      have hprod : 0xFFFFFFFF * n ≤ m * n := Nat.mul_le_mul_right n (by omega)
      have hfirst : min m 0xFFFFFFFF = 0xFFFFFFFF := Nat.min_eq_right (by omega)
      rw [hfirst, Nat.min_eq_right hword, Nat.min_eq_right (Nat.le_trans hword hprod)]

/-- **The size of an array is the exact one, or the largest word.** -/
theorem size_eq_saturate (h : ty.isDeclarable = true) : ty.size = saturate ty.exactSize := by
  induction ty with
  | array base n ih =>
    rw [isDeclarable, Bool.and_eq_true] at h
    rw [size, ih h.2, saturate_mul, exactSize_array]
  | void => cases h
  | int | float | pointer => rfl

/-- It starts at a multiple of four. -/
theorem align_eq_four (h : ty.isDeclarable = true) : ty.align = 4 := by
  induction ty with
  | array base n ih =>
    rw [isDeclarable, Bool.and_eq_true] at h
    exact ih h.2
  | void => cases h
  | int | float | pointer => rfl

end Ty

/-- The bytes that the arrays among some variables take together. -/
def extent (tys : List Ty) : Nat := (tys.map Ty.storage).sum

theorem extent_cons (ty : Ty) (tys : List Ty) : extent (ty :: tys) = ty.storage + extent tys := by
  unfold extent
  rw [List.map_cons, List.sum_cons]

theorem extent_take_le (tys : List Ty) (i : Nat) : extent (tys.take i) ≤ extent tys := by
  unfold extent
  rw [List.map_take]
  exact List.Sublist.sum_le_sum (List.take_sublist _ _) (fun _ _ => Nat.zero_le _)

/-! ## §2. Placing is exact up to 2 ^ 32 -/

/-- All arrays among the variables can be declared. -/
def Declarable (tys : List Ty) : Prop := ∀ ty ∈ tys, ty.isArray = true → ty.isDeclarable = true

instance (tys : List Ty) : Decidable (Declarable tys) :=
  inferInstanceAs (Decidable (∀ ty ∈ tys, ty.isArray = true → ty.isDeclarable = true))

/-- An aligned address is not moved, as long as the next one is a word too. -/
theorem Memory.alignUp_eq_self {offset : Nat} (h : 4 ∣ offset) (hlt : offset < 2 ^ 32) :
    alignUp offset 4 = offset := by
  have hmod : offset % 4 = 0 := Nat.mod_eq_zero_of_dvd h
  unfold alignUp divCeil saturate maxWord
  rw [if_pos hmod]
  omega

theorem saturate_add (m n : Nat) : saturate (m + saturate n) = saturate (m + n) := by
  unfold saturate maxWord
  omega

namespace StaticLayout

theorem address?_cons (slot : Option Nat) (slots : List (Option Nat)) (finish i : Nat) :
    address? ⟨slot :: slots, finish⟩ (i + 1) = address? ⟨slots, finish⟩ i := rfl

/-- **Every array stands where those before it end**, and what is recorded as
the end is the end, or the largest word.  The offset may be one past the
largest word, but then there is no array. -/
theorem place_exact {offset : Nat} {tys : List Ty} (htys : Declarable tys) (h4 : 4 ∣ offset)
    (hfits : offset + extent tys ≤ 2 ^ 32) :
    (place (saturate offset) tys).finish = saturate (offset + extent tys) ∧
      ∀ i ty, tys[i]? = some ty → ty.isArray = true →
        (place (saturate offset) tys).address? i = some (offset + extent (tys.take i)) := by
  induction tys generalizing offset with
  | nil => exact ⟨rfl, nofun⟩
  | cons ty tys ih =>
    have hlater : Declarable tys := fun t ht => htys t (List.mem_cons_of_mem _ ht)
    rw [extent_cons] at hfits ⊢
    rw [← Nat.add_assoc] at hfits ⊢
    have ih := ih hlater (Nat.dvd_add h4 ty.dvd_storage) hfits
    rw [place]
    split
    · rename_i harray
      have hdecl : ty.isDeclarable = true := htys ty List.mem_cons_self harray
      have hstorage : ty.storage = ty.exactSize := if_pos harray
      -- the array has bytes, so its own address is a word
      have hpos : 0 < ty.exactSize := Ty.exactSize_pos hdecl
      have hlt : offset < 2 ^ 32 := by omega
      have hword : saturate offset = offset := by
        unfold saturate maxWord
        omega
      have haddress : alignUp (saturate offset) ty.align = offset := by
        rw [Ty.align_eq_four hdecl, hword, alignUp_eq_self h4 hlt]
      have hnext : saturate (offset + ty.size) = saturate (offset + ty.storage) := by
        rw [Ty.size_eq_saturate hdecl, saturate_add, hstorage]
      dsimp only
      rw [haddress, hnext]
      refine ⟨ih.1, ?_⟩
      intro i t hi ht
      cases i with
      | zero => rfl
      | succ i =>
        rw [address?_cons, ih.2 i t hi ht, List.take_succ_cons, extent_cons, Nat.add_assoc]
    · rename_i harray
      have hstorage : ty.storage = 0 := if_neg harray
      rw [hstorage, Nat.add_zero] at ih ⊢
      refine ⟨ih.1, ?_⟩
      intro i t hi ht
      cases i with
      | zero =>
        cases hi
        exact absurd ht harray
      | succ i =>
        rw [address?_cons, ih.2 i t hi ht, List.take_succ_cons, extent_cons, hstorage,
          Nat.zero_add]

/-! ## §3. Sound layouts -/

/-- The bytes that variable `i` has in memory: none, if it is no array. -/
def room (l : StaticLayout) (tys : List Ty) (i : Nat) : Finset Nat :=
  match l.address? i, tys[i]? with
  | some a, some ty => Finset.Ico a (a + ty.exactSize)
  | _, _ => ∅

/-- Every array has room of its own in memory. -/
structure Sound (l : StaticLayout) (tys : List Ty) : Prop where
  disjoint : Pairwise fun i j => Disjoint (l.room tys i) (l.room tys j)
  aligned : ∀ i, ∀ a ∈ l.address? i, 4 ∣ a
  /-- Nothing is placed below the base. -/
  above : ∀ i, ∀ a ∈ l.address? i, 16 ≤ a
  inside : ∀ i, l.room tys i ⊆ Finset.range (l.pages * 65536)
  pages : 1 ≤ l.pages ∧ l.pages ≤ 65536

variable {l : StaticLayout} {tys : List Ty} {i : Nat}

theorem room_eq {a : Nat} {ty : Ty} (ha : l.address? i = some a) (hty : tys[i]? = some ty) :
    l.room tys i = Finset.Ico a (a + ty.exactSize) := by
  unfold room
  rw [ha, hty]

theorem room_of_none (h : l.address? i = none) : l.room tys i = ∅ := by
  unfold room
  rw [h]

/-- Room is inside of memory. -/
theorem room_subset (h : l.Sound tys) (i : Nat) : l.room tys i ⊆ Finset.Ico 16 (2 ^ 32) := by
  intro x hx
  have hpages := h.pages.2
  have hinside := Finset.mem_range.1 (h.inside i hx)
  cases ha : l.address? i with
  | none =>
    rw [room_of_none ha] at hx
    cases hx
  | some a =>
    have habove := h.above i a ha
    have hle : a ≤ x := by
      unfold room at hx
      rw [ha] at hx
      split at hx
      · rename_i heq _
        cases heq
        exact (Finset.mem_Ico.1 hx).1
      · cases hx
    rw [Finset.mem_Ico]
    omega

/-- If exactly the arrays have an address, a variable has the bytes that it
takes. -/
theorem card_room (haddress : ∀ i, (l.address? i).isSome = (tys[i]?).any Ty.isArray)
    (i : Fin tys.length) : (l.room tys i).card = tys[i.1].storage := by
  have hty : tys[i.1]? = some tys[i.1] := List.getElem?_eq_getElem i.2
  have hsome := haddress i
  rw [hty, Option.any_some] at hsome
  unfold Ty.storage
  cases ha : l.address? i with
  | none =>
    rw [ha] at hsome
    rw [room_of_none ha, ← hsome]
    rfl
  | some a =>
    rw [ha] at hsome
    rw [room_eq ha hty, Nat.card_Ico, ← hsome, if_pos Option.isSome_some]
    omega

/-- **A sound layout holds at most 2 ^ 32 bytes**, those below the base
included. -/
theorem Sound.extent_le (h : l.Sound tys)
    (haddress : ∀ i, (l.address? i).isSome = (tys[i]?).any Ty.isArray) :
    16 + extent tys ≤ 2 ^ 32 := by
  -- the rooms are disjoint parts of memory, so their sizes add up to no more than that
  have hunion : (Finset.univ.biUnion fun i : Fin tys.length => l.room tys i) ⊆
      Finset.Ico 16 (2 ^ 32) :=
    Finset.biUnion_subset.2 fun i _ => room_subset h i
  have hcard : (Finset.univ.biUnion fun i : Fin tys.length => l.room tys i).card = extent tys := by
    rw [Finset.card_biUnion]
    · simp only [card_room haddress]
      exact Fin.sum_univ_fun_getElem tys Ty.storage
    · intro i _ j _ hij
      exact h.disjoint fun heq => hij (Fin.ext heq)
  have hle := Finset.card_le_card hunion
  rw [hcard, Nat.card_Ico] at hle
  omega

/-! ## §4. Placed exactly, arrays have room of their own -/

/-- Placing is exact: an array stands where those before it end. -/
structure Exact (l : StaticLayout) (tys : List Ty) : Prop where
  arrays : ∀ i, (l.address? i).isSome = (tys[i]?).any Ty.isArray
  address : ∀ {i ty}, tys[i]? = some ty → ty.isArray = true →
    l.address? i = some (16 + extent (tys.take i))
  finish : l.finish = saturate (16 + extent tys)

/-- Arrays end at a multiple of four. -/
theorem dvd_extent (tys : List Ty) : 4 ∣ extent tys := by
  induction tys with
  | nil => exact Nat.dvd_zero 4
  | cons ty tys ih =>
    rw [extent_cons]
    exact Nat.dvd_add ty.dvd_storage ih

/-- An array ends before those after it start. -/
theorem extent_take_add_le {j : Nat} {ty : Ty} (hi : tys[i]? = some ty) (harray : ty.isArray = true)
    (hij : i < j) : extent (tys.take i) + ty.exactSize ≤ extent (tys.take j) := by
  have hsucc : extent (tys.take (i + 1)) = extent (tys.take i) + ty.exactSize := by
    unfold extent
    rw [List.take_add_one, hi, List.map_append, List.sum_append]
    show _ + (ty.storage + 0) = _
    rw [Nat.add_zero, Ty.storage, if_pos harray]
  have hle := extent_take_le (tys.take j) (i + 1)
  rw [List.take_take, Nat.min_eq_left hij, hsucc] at hle
  exact hle

/-- An address is that of an array, after those before it. -/
theorem Exact.of_address (h : l.Exact tys) {a : Nat} (ha : l.address? i = some a) :
    ∃ ty, tys[i]? = some ty ∧ ty.isArray = true ∧ a = 16 + extent (tys.take i) := by
  have hsome := h.arrays i
  rw [ha] at hsome
  obtain ⟨ty, hty, harray⟩ := (Option.any_eq_true _ _).1 hsome.symm
  have heq := h.address hty harray
  rw [ha] at heq
  exact ⟨ty, hty, harray, Option.some.inj heq⟩

/-- Room is that of an array, after those before it. -/
theorem Exact.of_mem_room (h : l.Exact tys) {x : Nat} (hx : x ∈ l.room tys i) :
    ∃ ty, tys[i]? = some ty ∧ ty.isArray = true ∧ 16 + extent (tys.take i) ≤ x ∧
      x < 16 + extent (tys.take i) + ty.exactSize := by
  cases ha : l.address? i with
  | none =>
    rw [room_of_none ha] at hx
    cases hx
  | some a =>
    obtain ⟨ty, hty, harray, rfl⟩ := h.of_address ha
    rw [room_eq ha hty, Finset.mem_Ico] at hx
    exact ⟨ty, hty, harray, hx⟩

/-- The pages hold all bytes up to the end of the arrays. -/
theorem Exact.le_pages (h : l.Exact tys) (hfits : 16 + extent tys ≤ 2 ^ 32) :
    16 + extent tys ≤ l.pages * 65536 ∧ 1 ≤ l.pages ∧ l.pages ≤ 65536 := by
  have hfinish := h.finish
  unfold pages divCeil pageSize
  unfold saturate maxWord at hfinish
  -- at 2 ^ 32 the recorded end is one byte short, in the middle of the last page
  split <;> omega

/-- **If all fits, no two arrays overlap.** -/
theorem Exact.sound (h : l.Exact tys) (hfits : 16 + extent tys ≤ 2 ^ 32) : l.Sound tys where
  disjoint := by
    have hlt : ∀ {i j : Nat}, i < j → Disjoint (l.room tys i) (l.room tys j) := by
      intro i j hij
      rw [Finset.disjoint_left]
      intro x hi hj
      obtain ⟨ty, hty, harray, _, hbefore⟩ := h.of_mem_room hi
      obtain ⟨_, _, _, hfrom, _⟩ := h.of_mem_room hj
      have hle := extent_take_add_le hty harray hij
      omega
    intro i j hij
    rcases Nat.lt_or_gt_of_ne hij with hij | hij
    · exact hlt hij
    · exact (hlt hij).symm
  aligned := by
    intro i a ha
    obtain ⟨_, _, _, rfl⟩ := h.of_address ha
    have hdvd := dvd_extent (tys.take i)
    omega
  above := by
    intro i a ha
    obtain ⟨_, _, _, rfl⟩ := h.of_address ha
    exact Nat.le_add_right 16 _
  inside := by
    intro i x hx
    obtain ⟨ty, hty, harray, _, hlt⟩ := h.of_mem_room hx
    have hle := extent_take_add_le hty harray (List.getElem?_eq_some_iff.1 hty).1
    rw [List.take_length] at hle
    have hpages := (h.le_pages hfits).1
    rw [Finset.mem_range]
    omega
  pages := (h.le_pages hfits).2

/-- **Static storage is sound exactly up to 2 ^ 32 bytes.**  The arrays, and
nothing else, have an address; they have room of their own in memory if and
only if the base and all their bytes make no more than 2 ^ 32, and then each
stands where those before it end. -/
theorem sound_iff_extent_le (htys : Declarable tys) :
    (∀ i, ((ofTypes tys).address? i).isSome = (tys[i]?).any Ty.isArray) ∧
      ((ofTypes tys).Sound tys ↔ 16 + extent tys ≤ 2 ^ 32) ∧
      (16 + extent tys ≤ 2 ^ 32 → ∀ i ty, tys[i]? = some ty → ty.isArray = true →
        (ofTypes tys).address? i = some (16 + extent (tys.take i))) := by
  have harrays := isSome_address?_place staticBase tys
  have hexact : 16 + extent tys ≤ 2 ^ 32 → (ofTypes tys).Exact tys := by
    intro hfits
    obtain ⟨hfinish, haddress⟩ := place_exact htys (by decide : 4 ∣ staticBase) hfits
    exact ⟨harrays, fun {i ty} => haddress i ty, hfinish⟩
  refine ⟨harrays, ⟨fun h => h.extent_le harrays, fun hfits => (hexact hfits).sound hfits⟩, ?_⟩
  intro hfits i ty hty harray
  exact (hexact hfits).address hty harray

/-- Three pointers after a matrix of integers, with the last byte of memory as
the last byte of the pointers.  One element more is too much. -/
theorem sound_iff_extent_le_limit :
    Declarable [.array (.array .int 3) 357913939, .int, .array (.pointer .void) 3] ∧
      (ofTypes [.array (.array .int 3) 357913939, .int, .array (.pointer .void) 3]).Sound
        [.array (.array .int 3) 357913939, .int, .array (.pointer .void) 3] ∧
      (ofTypes [.array (.array .int 3) 357913939, .int, .array (.pointer .void) 3]).address? 2 =
        some 4294967284 ∧
      ¬ (ofTypes [.array (.array .int 3) 357913939, .int, .array (.pointer .void) 4]).Sound
        [.array (.array .int 3) 357913939, .int, .array (.pointer .void) 4] := by
  have hdecl : Declarable [.array (.array .int 3) 357913939, .int, .array (.pointer .void) 3] := by
    decide
  have hmore : Declarable [.array (.array .int 3) 357913939, .int, .array (.pointer .void) 4] := by
    decide
  obtain ⟨_, hsound, haddress⟩ := sound_iff_extent_le hdecl
  obtain ⟨_, hunsound, _⟩ := sound_iff_extent_le hmore
  refine ⟨hdecl, hsound.2 (by decide), haddress (by decide) 2 _ rfl rfl, ?_⟩
  intro h
  exact absurd (hunsound.1 h) (by decide)

end StaticLayout

end MiniC
