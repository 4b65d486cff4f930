/-
  MiniC.Proofs.Naming.Interning

  **Interning is a stable bijection.**

  The handle of a name is its place in the table, and looking for that place
  means going through all names.  A table can be kept with an index instead:
  the names in their order, and beside them slots that are found by a hash and
  say where a name stands (`Indexed`).  Its handles are nonzero words (`Code`),
  so it has room for so many names and no more.

  What keeps the two parts in step (`InStep`) is that a slot is held exactly
  if there is a name at its place, and the hash is that of the name.

    • Searching by hash finds the place that going through the names finds
      (`InStep.search`), whichever names share a hash.
    • So one call after another, both tables return the same handles
      (`InStep.internAll`).
    • A handle is the place of its name among all names that are ever interned
      (`handles_eq_map`), and these stand in the order of their first calls
      (`idxOf_texts_lt_iff`).
-/
import Mathlib.Algebra.Group.Nat.Defs
import Mathlib.Data.List.Induction
import MiniC.Proofs.Strict.Breach

namespace MiniC.Names

open Strict (capacity nodup_intern handle_lt)

/-! ## §1. What calls return -/

/-- The handles that interning one name after another returns. -/
def handles (names : Names) : List String → List Handle
  | [] => []
  | x :: xs => (names.intern x).1 :: (names.intern x).2.handles xs

/-- What calls returned stands for the names of the calls; `get` looks a handle
up, and `size` is the number of names. -/
structure Faithful {H : Type} [Ord H] (calls : List String) (returned : List H)
    (get : H → Option String) (size : Nat) : Prop where
  /-- Each call returned a handle. -/
  answered : returned.length = calls.length
  /-- Two calls returned equal handles exactly if their names are equal. -/
  eq_iff : ∀ p ∈ calls.zip returned, ∀ q ∈ calls.zip returned, p.2 = q.2 ↔ p.1 = q.1
  /-- The name of a handle is found. -/
  get_eq : ∀ p ∈ calls.zip returned, get p.2 = some p.1
  /-- The distinct names are counted. -/
  size_eq : size = calls.dedup.length
  /-- Handles compare as the first calls with their names. -/
  compare_eq : ∀ p ∈ calls.zip returned, ∀ q ∈ calls.zip returned,
    compare p.2 q.2 = compare (calls.idxOf p.1) (calls.idxOf q.1)

theorem internAll_append (names : Names) (xs ys : List String) :
    names.internAll (xs ++ ys) = (names.internAll xs).internAll ys :=
  List.foldl_append

/-- Interning only adds names, after those that are there. -/
theorem prefix_intern (names : Names) (x : String) :
    names.texts <+: (names.intern x).2.texts := by
  rw [texts_intern]
  split
  · exact List.prefix_refl _
  · exact List.prefix_append _ _

theorem prefix_internAll (names : Names) (xs : List String) :
    names.texts <+: (names.internAll xs).texts := by
  induction xs generalizing names with
  | nil => exact List.prefix_refl _
  | cons x xs ih => exact (names.prefix_intern x).trans (ih (names.intern x).2)

theorem nodup_internAll {names : Names} (h : names.texts.Nodup) (xs : List String) :
    (names.internAll xs).texts.Nodup := by
  induction xs generalizing names with
  | nil => exact h
  | cons x xs ih => exact ih (nodup_intern x h)

/-- A handle is the place that its name has in the end. -/
theorem handles_eq_map (names : Names) (calls : List String) :
    names.handles calls = calls.map fun x => ⟨(names.internAll calls).texts.idxOf x⟩ := by
  induction calls generalizing names with
  | nil => rfl
  | cons x xs ih =>
    have hmem : x ∈ (names.intern x).2.texts := mem_intern.2 (.inr rfl)
    have hpre : (names.intern x).2.texts <+: (names.internAll (x :: xs)).texts :=
      prefix_internAll _ xs
    have hhead : (names.intern x).1 = ⟨(names.internAll (x :: xs)).texts.idxOf x⟩ := by
      rw [← hpre.idxOf_eq_of_mem hmem, idxOf_intern, handle_intern]
    rw [List.map_cons, ← hhead]
    exact congrArg _ (ih (names.intern x).2)

/-- The names entered are those that were there and those of the calls. -/
theorem mem_internAll {names : Names} {calls : List String} {x : String} :
    x ∈ (names.internAll calls).texts ↔ x ∈ names.texts ∨ x ∈ calls := by
  induction calls generalizing names with
  | nil => simp [internAll]
  | cons y ys ih =>
    have hcons : names.internAll (y :: ys) = (names.intern y).2.internAll ys := rfl
    rw [hcons, ih, mem_intern, List.mem_cons, or_assoc]

theorem mem_texts {calls : List String} {x : String} :
    x ∈ (internAll {} calls).texts ↔ x ∈ calls := by
  simp [mem_internAll]

/-- **Names stand in the order of their first calls.** -/
theorem idxOf_texts_lt_iff {calls : List String} {x y : String} (hx : x ∈ calls)
    (hy : y ∈ calls) :
    (internAll {} calls).texts.idxOf x < (internAll {} calls).texts.idxOf y ↔
      calls.idxOf x < calls.idxOf y := by
  induction calls using List.reverseRecOn with
  | nil => exact absurd hx List.not_mem_nil
  | append_singleton calls z ih =>
    have htexts : (internAll {} (calls ++ [z])).texts =
        if z ∈ calls then (internAll {} calls).texts else (internAll {} calls).texts ++ [z] := by
      rw [internAll_append]
      show ((internAll {} calls).intern z).2.texts = _
      simp only [texts_intern, mem_texts]
    by_cases hz : z ∈ calls
    · -- both names have had their first calls
      have hmem : ∀ {w}, w ∈ calls ++ [z] → w ∈ calls := by grind
      rw [htexts, if_pos hz, List.idxOf_append_of_mem (hmem hx),
        List.idxOf_append_of_mem (hmem hy)]
      exact ih (hmem hx) (hmem hy)
    · -- the new name comes last in both lists
      have hknown : ∀ w, w ∈ (internAll {} calls).texts ↔ w ∈ calls := fun w => mem_texts
      rw [htexts, if_neg hz]
      generalize (internAll {} calls).texts = texts at hknown ih
      grind

/-- There are as many handles as different names. -/
theorem size_internAll (calls : List String) :
    (internAll {} calls).size = calls.dedup.length := by
  have hnodup : (internAll {} calls).texts.Nodup := nodup_internAll List.nodup_nil calls
  have hperm : (internAll {} calls).texts.Perm calls.dedup :=
    (List.perm_ext_iff_of_nodup hnodup calls.nodup_dedup).2 fun x => by
      rw [mem_texts, List.mem_dedup]
  exact hperm.length_eq

theorem compare_mk (i j : Nat) : compare (Handle.mk i) ⟨j⟩ = compare i j :=
  Ordering.then_eq

/-- Handles stand for the names of the calls, and do so after more calls. -/
theorem faithful_handles (calls more : List String) :
    Faithful calls (handles {} calls) (internAll {} (calls ++ more)).text?
      (internAll {} calls).size := by
  have hzip : ∀ p ∈ calls.zip (handles {} calls),
      p.1 ∈ calls ∧ p.2 = ⟨(internAll {} calls).texts.idxOf p.1⟩ := by
    intro p hp
    rw [handles_eq_map, ← List.map_prod_left_eq_zip] at hp
    obtain ⟨x, hx, rfl⟩ := List.mem_map.1 hp
    exact ⟨hx, rfl⟩
  constructor
  case answered => rw [handles_eq_map, List.length_map]
  case size_eq => exact size_internAll calls
  case eq_iff =>
    intro p hp q hq
    obtain ⟨hpx, hp⟩ := hzip p hp
    obtain ⟨hqx, hq⟩ := hzip q hq
    rw [hp, hq, Handle.mk.injEq, List.idxOf_inj (mem_texts.2 hpx)]
  case get_eq =>
    intro p hp
    obtain ⟨hpx, hp⟩ := hzip p hp
    have hpre : (internAll {} calls).texts <+: (internAll {} (calls ++ more)).texts := by
      rw [internAll_append]
      exact prefix_internAll _ more
    have hmem : p.1 ∈ (internAll {} (calls ++ more)).texts := hpre.subset (mem_texts.2 hpx)
    rw [hp, hpre.idxOf_eq_of_mem (mem_texts.2 hpx)]
    exact text?_of_mem hmem
  case compare_eq =>
    intro p hp q hq
    obtain ⟨hpx, hp⟩ := hzip p hp
    obtain ⟨hqx, hq⟩ := hzip q hq
    rw [hp, hq, compare_mk, Nat.compare_eq_ite_lt, Nat.compare_eq_ite_lt]
    simp only [idxOf_texts_lt_iff hpx hqx, idxOf_texts_lt_iff hqx hpx]

/-! ## §2. Handles as words -/

/-- A handle as a word: one more than its place, so that it is never zero. -/
@[ext]
structure Code where
  word : UInt32
  nonzero : word ≠ 0
  deriving DecidableEq, Repr

namespace Code

/-- Codes are ordered as their words. -/
instance : Ord Code := ⟨fun c d => compare c.word d.word⟩

/-- The code of a place, for which there must be a word. -/
def ofIndex (i : Nat) : Except Breach Code :=
  if h : i + 1 < UInt32.size then
    .ok ⟨.ofNatLT (i + 1) h, fun hzero => Nat.succ_ne_zero i (congrArg UInt32.toNat hzero)⟩
  else .error .tableFull

/-- The handle that a code stands for. -/
def handle (c : Code) : Handle := ⟨c.word.toNat - 1⟩

/-- Every index below the capacity has a code. -/
theorem exists_ofIndex {i : Nat} (h : i < capacity) :
    ∃ c, ofIndex i = .ok c ∧ c.handle = ⟨i⟩ := by
  have hlt : i + 1 < UInt32.size := by
    unfold capacity at h
    omega
  exact ⟨_, dif_pos hlt, rfl⟩

theorem toNat_word (c : Code) : c.word.toNat = c.handle.index + 1 := by
  have hpos : c.word.toNat ≠ 0 := fun hzero => c.nonzero (UInt32.toNat_inj.1 hzero)
  show c.word.toNat = c.word.toNat - 1 + 1
  omega

theorem handle_inj {c d : Code} : c.handle = d.handle ↔ c = d := by
  refine ⟨fun h => ?_, congrArg handle⟩
  exact Code.ext (UInt32.toNat_inj.1 (by rw [toNat_word, toNat_word, h]))

theorem compare_handle (c d : Code) : compare c.handle d.handle = compare c d := by
  show _ = compare c.word d.word
  rw [UInt32.compare_eq_toNat_compare_toNat, toNat_word, toNat_word, compare_mk]
  simp only [Nat.compare_eq_ite_lt, Nat.add_lt_add_iff_right]

end Code

/-- Codes stand for names as their handles do. -/
theorem Faithful.codes {calls : List String} {codes : List Code} {get : Handle → Option String}
    {get' : Code → Option String} {size : Nat}
    (h : Faithful calls (codes.map Code.handle) get size) (hget : ∀ c, get' c = get c.handle) :
    Faithful calls codes get' size := by
  have hzip : ∀ p ∈ calls.zip codes, (p.1, p.2.handle) ∈ calls.zip (codes.map Code.handle) := by
    intro p hp
    rw [List.zip_map_right]
    exact List.mem_map.2 ⟨p, hp, rfl⟩
  constructor
  case answered => rw [← h.answered, List.length_map]
  case size_eq => exact h.size_eq
  case eq_iff =>
    intro p hp q hq
    rw [← Code.handle_inj]
    exact h.eq_iff _ (hzip p hp) _ (hzip q hq)
  case get_eq =>
    intro p hp
    rw [hget]
    exact h.get_eq _ (hzip p hp)
  case compare_eq =>
    intro p hp q hq
    rw [← Code.compare_handle]
    exact h.compare_eq _ (hzip p hp) _ (hzip q hq)

/-! ## §3. Names with an index -/

/-- Where a name stands, and its hash. -/
structure Slot where
  index : Nat
  hash : UInt64
  deriving DecidableEq, Repr

/-- A way to keep slots so that they are found by a hash and a test. -/
structure SlotTable where
  /-- The slots that are held, in whatever form. -/
  State : Type
  slots : State → List Slot
  empty : State
  insert : State → Slot → State
  find : State → (hash : UInt64) → (test : Slot → Bool) → Option Slot
  slots_empty : slots empty = []
  mem_insert : ∀ t new s, s ∈ slots (insert t new) ↔ s ∈ slots t ∨ s = new
  /-- A slot that is found passes the test. -/
  of_find_some : ∀ t hash test s, find t hash test = some s → s ∈ slots t ∧ test s = true
  /-- If none is found, none with the hash passes the test. -/
  of_find_none : ∀ t hash test, find t hash test = none →
    ∀ s ∈ slots t, s.hash = hash → test s = false

/-- Names in the order in which they were first interned, and their slots. -/
structure Indexed (T : SlotTable) where
  lookup : T.State := T.empty
  texts : Array String := #[]

namespace Indexed

variable {T : SlotTable} (hash : String → UInt64)

/-- The slot of a name.  The test may be asked about any slot, so there must be
a name at the place of each. -/
def search (names : Indexed T) (x : String) : Except Breach (Option Slot) :=
  match (T.slots names.lookup).find? (names.texts.size ≤ ·.index) with
  | some s => .error (.noPlace s.index)
  | none => .ok (T.find names.lookup (hash x) fun s => names.texts[s.index]? == some x)

/-- Enters a name in both parts. -/
def add (names : Indexed T) (x : String) : Indexed T :=
  ⟨T.insert names.lookup ⟨names.texts.size, hash x⟩, names.texts.push x⟩

/-- The code of a name, which is added if it has no slot. -/
def intern (names : Indexed T) (x : String) : Except Breach (Code × Indexed T) := do
  match ← names.search hash x with
  | some s => return (← Code.ofIndex s.index, names)
  | none => return (← Code.ofIndex names.texts.size, names.add hash x)

/-- Interns one name after another, and returns their codes. -/
def internAll (names : Indexed T) : List String → Except Breach (List Code × Indexed T)
  | [] => return ([], names)
  | x :: xs => do
    let (c, names) ← names.intern hash x
    let (cs, names) ← names.internAll xs
    return (c :: cs, names)

/-- The name with a code. -/
def text? (names : Indexed T) (c : Code) : Option String := names.texts[c.word.toNat - 1]?

/-- How many names there are. -/
def size (names : Indexed T) : Nat := names.texts.size

end Indexed

/-! ## §4. Both parts in step -/

variable {T : SlotTable} {hash : String → UInt64} {names : Indexed T} {plain : Names}

/-- The names are those of the plain table, each once, and the slots are those
of the names. -/
structure InStep (hash : String → UInt64) (names : Indexed T) (plain : Names) : Prop where
  texts : names.texts.toList = plain.texts
  nodup : plain.texts.Nodup
  slots : ∀ s, s ∈ T.slots names.lookup ↔
    ∃ x, plain.texts[s.index]? = some x ∧ s.hash = hash x

namespace InStep

theorem empty : InStep hash ({} : Indexed T) {} where
  texts := rfl
  nodup := List.nodup_nil
  slots s := by simp [T.slots_empty]

theorem size (h : InStep hash names plain) : names.texts.size = plain.size := by
  rw [← Array.length_toList, h.texts]
  rfl

theorem getElem? (h : InStep hash names plain) (i : Nat) :
    names.texts[i]? = plain.texts[i]? := by
  rw [← Array.getElem?_toList, h.texts]

/-- **Searching by hash finds what going through the names finds.** -/
theorem search (h : InStep hash names plain) (x : String) :
    ∃ found, names.search hash x = .ok found ∧ found.map Slot.index = plain.texts.idxOf? x := by
  have hplaces : (T.slots names.lookup).find? (names.texts.size ≤ ·.index) = none := by
    refine List.find?_eq_none.2 fun s hs => ?_
    obtain ⟨y, hy, _⟩ := (h.slots s).1 hs
    have hlt : s.index < plain.size := (List.getElem?_eq_some_iff.1 hy).1
    simpa [h.size] using hlt
  refine ⟨_, by rw [Indexed.search, hplaces], ?_⟩
  cases hfound : T.find names.lookup (hash x) fun s => names.texts[s.index]? == some x with
  | none =>
    -- a name of the table would have a slot with its hash, and be found
    refine (List.idxOf?_eq_none_iff.2 fun hx => ?_).symm
    obtain ⟨i, hi⟩ := List.mem_iff_getElem?.1 hx
    have hslot := (h.slots ⟨i, hash x⟩).2 ⟨x, hi, rfl⟩
    have hfalse := T.of_find_none _ _ _ hfound _ hslot rfl
    simp [h.getElem?, hi] at hfalse
  | some s =>
    -- the name at the place of the slot is the one searched, and is there once
    have htrue := (T.of_find_some _ _ _ _ hfound).2
    rw [h.getElem?, beq_iff_eq] at htrue
    obtain ⟨hlt, hx⟩ := List.getElem?_eq_some_iff.1 htrue
    refine (List.idxOf?_eq_some_iff.2 ⟨hlt, hx, fun j hj hjx => ?_⟩).symm
    have hji : j = s.index := h.nodup.getElem_inj_iff.1 (hjx.trans hx.symm)
    omega

/-- A new name enters both parts. -/
theorem add (h : InStep hash names plain) {x : String} (hx : x ∉ plain.texts) :
    InStep hash (names.add hash x) ⟨plain.texts ++ [x]⟩ where
  texts := by rw [Indexed.add, Array.toList_push, h.texts]
  nodup := List.nodup_append.2 ⟨h.nodup, List.nodup_singleton x, by grind⟩
  slots s := by
    rw [Indexed.add, T.mem_insert, h.slots, h.size, Names.size]
    obtain ⟨i, code⟩ := s
    simp only [List.getElem?_append, Slot.mk.injEq]
    grind

/-- **One call keeps both parts in step**, and returns what the plain table
returns. -/
theorem intern (h : InStep hash names plain) (x : String)
    (hroom : (plain.intern x).1.index < capacity) :
    ∃ c names', names.intern hash x = .ok (c, names') ∧ c.handle = (plain.intern x).1 ∧
      InStep hash names' (plain.intern x).2 := by
  obtain ⟨c, hc, hhandle⟩ := Code.exists_ofIndex hroom
  obtain ⟨found, hfound, hidx⟩ := h.search x
  unfold Indexed.intern
  rw [hfound]
  cases found with
  | some s =>
    rw [intern_of_mem hidx.symm] at hc hhandle ⊢
    have hcode : Code.ofIndex s.index = .ok c := hc
    refine ⟨c, names, ?_, hhandle, h⟩
    show (Code.ofIndex s.index >>= fun c => pure (c, names)) = _
    rw [hcode]
    rfl
  | none =>
    have hx : x ∉ plain.texts := List.idxOf?_eq_none_iff.1 hidx.symm
    rw [intern_of_not_mem hx] at hc hhandle ⊢
    have hcode : Code.ofIndex names.texts.size = .ok c := by
      rw [h.size]
      exact hc
    refine ⟨c, names.add hash x, ?_, hhandle, h.add hx⟩
    show (Code.ofIndex names.texts.size >>= fun c => pure (c, names.add hash x)) = _
    rw [hcode]
    rfl

/-- **So do calls one after the other**, as long as there are codes for the
names. -/
theorem internAll (h : InStep hash names plain) (calls : List String)
    (hroom : (plain.internAll calls).size ≤ capacity) :
    ∃ codes names', names.internAll hash calls = .ok (codes, names') ∧
      codes.map Code.handle = plain.handles calls ∧
        InStep hash names' (plain.internAll calls) := by
  induction calls generalizing names plain with
  | nil => exact ⟨[], names, rfl, rfl, h⟩
  | cons x xs ih =>
    have hlt : (plain.intern x).1.index < capacity :=
      calc (plain.intern x).1.index < (plain.intern x).2.texts.length := handle_lt plain x
        _ ≤ (plain.internAll (x :: xs)).texts.length := (prefix_internAll _ xs).length_le
        _ ≤ capacity := hroom
    obtain ⟨c, names₁, hcall, hhandle, h₁⟩ := h.intern x hlt
    obtain ⟨cs, names₂, hcalls, hhandles, h₂⟩ := ih h₁ hroom
    refine ⟨c :: cs, names₂, ?_, ?_, h₂⟩
    · unfold Indexed.internAll
      rw [hcall]
      show (names₁.internAll hash xs >>= _) = _
      rw [hcalls]
      rfl
    · rw [List.map_cons, hhandle, hhandles]
      rfl

end InStep

/-! ## §5. The bijection -/

/-- **Interning is a stable bijection.**  However the slots are kept and the
names are hashed, no call breaks off if there are fewer distinct names than
nonzero words; the codes are those of the handles; and codes and handles both
stand for the names of the calls, also when looked up after more calls. -/
theorem interning_bijective (T : SlotTable) (hash : String → UInt64) (calls more : List String)
    (hroom : (calls ++ more).dedup.length < 2 ^ 32 - 1) :
    Faithful calls (handles {} calls) (internAll {} (calls ++ more)).text?
        (internAll {} calls).size ∧
      ∃ codes names codes' names',
        ({} : Indexed T).internAll hash calls = .ok (codes, names) ∧
          names.internAll hash more = .ok (codes', names') ∧
            codes.map Code.handle = handles {} calls ∧
              Faithful calls codes names'.text? names.size := by
  have hfaithful := faithful_handles calls more
  have hall : ((internAll {} calls).internAll more).size ≤ capacity := by
    rw [← internAll_append, size_internAll]
    exact Nat.le_of_lt hroom
  have hfirst : (internAll {} calls).size ≤ capacity :=
    Nat.le_trans (prefix_internAll _ more).length_le hall
  obtain ⟨codes, names, hcalls, hcodes, h⟩ := InStep.empty.internAll calls hfirst
  obtain ⟨codes', names', hmore, _, h'⟩ := h.internAll more hall
  refine ⟨hfaithful, codes, names, codes', names', hcalls, hmore, hcodes, ?_⟩
  rw [← hcodes, internAll_append, ← h.size] at hfaithful
  exact hfaithful.codes fun c => h'.getElem? c.handle.index

/-- Slots are searched in the bucket of the hash, its rest modulo `n`. -/
def SlotTable.buckets (n : UInt64) : SlotTable where
  State := List Slot
  slots t := t
  empty := []
  insert t new := t ++ [new]
  find t hash test := (t.filter fun s => s.hash % n == hash % n).find? test
  slots_empty := rfl
  mem_insert t new s := by simp
  of_find_some t hash test s h :=
    ⟨(List.mem_filter.1 (List.mem_of_find?_eq_some h)).1, List.find?_some h⟩
  of_find_none t hash test h s hs hhash := by
    have hbucket : (s.hash % n == hash % n) = true := by rw [hhash, beq_self_eq_true]
    simpa using List.find?_eq_none.1 h s (List.mem_filter.2 ⟨hs, hbucket⟩)

/-- Names hashed by their lengths: four of the five share a hash, and the fifth
is in the same bucket. -/
theorem interning_bijective_collisions :
    (["x", "y", "x", "n", "total"] ++ ["y", "f"]).dedup.length < 2 ^ 32 - 1 ∧
      Faithful ["x", "y", "x", "n", "total"] [⟨0⟩, ⟨1⟩, ⟨0⟩, ⟨2⟩, ⟨3⟩]
          (internAll {} ["x", "y", "x", "n", "total", "y", "f"]).text? 4 ∧
        ∃ codes names codes' names',
          ({} : Indexed (.buckets 4)).internAll (·.length.toUInt64)
              ["x", "y", "x", "n", "total"] = .ok (codes, names) ∧
            names.internAll (·.length.toUInt64) ["y", "f"] = .ok (codes', names') ∧
              codes.map Code.handle = [⟨0⟩, ⟨1⟩, ⟨0⟩, ⟨2⟩, ⟨3⟩] ∧
                Faithful ["x", "y", "x", "n", "total"] codes names'.text? names.size :=
  have hroom : (["x", "y", "x", "n", "total"] ++ ["y", "f"]).dedup.length < 2 ^ 32 - 1 := by decide
  ⟨hroom, interning_bijective (.buckets 4) (·.length.toUInt64) ["x", "y", "x", "n", "total"]
    ["y", "f"] hroom⟩

end MiniC.Names
