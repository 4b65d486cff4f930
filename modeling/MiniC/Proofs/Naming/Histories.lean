/-
  MiniC.Proofs.Naming.Histories

  **A scope answers by its history.**

  All that a scope is asked can be answered from the log of what was done to
  it, without any frames.  Counting the blocks that a log opens and closes
  (`rise`) tells whether the frame that an entry went into is still open, and
  how many frames lie within it (`Entered`).  An entry counts if it was the
  first of its name in its frame (`Holds`), and a name means what the entry
  that counts in the innermost such frame says (`Means`).

    • Frame by frame, a scope has the entries that count in its log
      (`reflected_after`): what one operation does to the frames, it does to
      these entries (`holds_concat_iff`).
    • Between a block and its end only the frames within it change
      (`inner_after`), so a closed block leaves the scope as it was.
-/
import Mathlib.Data.List.Induction
import MiniC.Proofs.Typing.Tables

namespace MiniC.Scope

variable {ops log : List Op} {op : Op} {name : String} {b : Binding} {k : Nat} {s : Scope}

/-! ## §1. Operations and their answers -/

/-- An operation on a scope. -/
inductive Op where
  /-- Opens a block. -/
  | push
  /-- Closes the innermost block. -/
  | pop
  /-- Gives a name a meaning in the innermost frame. -/
  | add (name : String) (b : Binding)
  /-- Asks what a name stands for. -/
  | get (name : String)
  deriving DecidableEq, Repr

/-- What an operation shows. -/
inductive Answer where
  /-- Nothing. -/
  | done
  /-- The name has its meaning. -/
  | added
  /-- The name had a meaning in its frame, and keeps it. -/
  | refused (d : Duplicate)
  /-- What the name stands for. -/
  | found (b : Option Binding)
  deriving DecidableEq, Repr

/-- What an operation shows, and the scope it leaves. -/
def step (s : Scope) : Op → Answer × Scope
  | .push => (.done, s.push)
  | .pop => (.done, s.pop)
  | .add name b =>
    match s.add name b with
    | .ok s' => (.added, s')
    | .error d => (.refused d, s)
  | .get name => (.found (s.get? name), s)

/-- The scope that operations leave. -/
def after (s : Scope) : List Op → Scope
  | [] => s
  | op :: ops => (s.step op).2.after ops

/-- What operations show, one by one. -/
def answers (s : Scope) : List Op → List Answer
  | [] => []
  | op :: ops => (s.step op).1 :: (s.step op).2.answers ops

/-- What an operation shows that follows those of a log. -/
def answer (log : List Op) (op : Op) : Answer := ((empty.after log).step op).1

theorem after_append (s : Scope) (ops more : List Op) :
    s.after (ops ++ more) = (s.after ops).after more := by
  induction ops generalizing s with
  | nil => rfl
  | cons op ops ih => exact ih (s.step op).2

/-! ## §2. Logs -/

/-- How many blocks are open after an operation, if `d` are before it; nothing
if it closes a block and there is none. -/
def Op.shift : Op → Nat → Option Nat
  | .push, d => some (d + 1)
  | .pop, 0 => none
  | .pop, d + 1 => some d
  | .add .., d => some d
  | .get _, d => some d

/-- How many blocks are open after operations, if `d` are before them; nothing
if they close more blocks than there are. -/
def rise : List Op → Nat → Option Nat
  | [], d => some d
  | op :: ops, d => (op.shift d).bind (rise ops)

/-- Blocks open and close in order. -/
theorem rise_append (ops more : List Op) (d : Nat) :
    rise (ops ++ more) d = (rise ops d).bind (rise more) := by
  induction ops generalizing d with
  | nil => rfl
  | cons op ops ih =>
    show (op.shift d).bind (rise (ops ++ more)) = ((op.shift d).bind (rise ops)).bind (rise more)
    rw [Option.bind_assoc]
    exact congrArg _ (funext ih)

/-- The last operation shifts what came before. -/
theorem rise_concat (ops : List Op) (op : Op) (d : Nat) :
    rise (ops ++ [op]) d = (rise ops d).bind op.shift := by
  rw [rise_append]
  congr 1
  funext d'
  exact Option.bind_fun_some _

/-- The operations close no block that was open before them, so that a log of
them never closes the global frame. -/
def Nested (ops : List Op) : Prop := rise ops 0 ≠ none

/-- The operations close the blocks that they open, and no other. -/
def Matched (ops : List Op) : Prop := rise ops 0 = some 0

instance (ops : List Op) : Decidable (Nested ops) := inferInstanceAs (Decidable (_ ≠ _))

instance (ops : List Op) : Decidable (Matched ops) := inferInstanceAs (Decidable (_ = _))

theorem Nested.of_append {more : List Op} (h : Nested (ops ++ more)) : Nested ops := by
  intro hnone
  apply h
  rw [rise_append, hnone]
  rfl

/-- A log adds the name after `before`, to a frame that is open in the end with
`k` frames within it. -/
def Entered (log before : List Op) (name : String) (b : Binding) (k : Nat) : Prop :=
  ∃ later, log = before ++ .add name b :: later ∧ rise later 0 = some k

/-- A log adds the name, in vain or not, to a frame that is open in the end
with `k` frames within it. -/
def Tried (log : List Op) (name : String) (k : Nat) : Prop :=
  ∃ before b, Entered log before name b k

/-- A log adds the name to a frame that had no such name before, and that is
open in the end with `k` frames within it. -/
def Holds (log : List Op) (name : String) (b : Binding) (k : Nat) : Prop :=
  ∃ before, Entered log before name b k ∧ ¬ Tried before name 0

/-- What a log makes of a name: the meaning it has in the innermost of the
open frames that have it. -/
def Means (log : List Op) (name : String) (b : Binding) : Prop :=
  ∃ k, Holds log name b k ∧ ∀ j < k, ¬ Tried log name j

/-- An entry is an earlier one, in a frame that is still open, or the last
operation. -/
theorem entered_concat_iff {before : List Op} : Entered (log ++ [op]) before name b k ↔
      (∃ j, Entered log before name b j ∧ op.shift j = some k) ∨
        before = log ∧ op = .add name b ∧ k = 0 := by
  constructor
  · rintro ⟨later, hlog, hrise⟩
    rcases List.eq_nil_or_concat later with rfl | ⟨later, last, rfl⟩
    · -- the entry is the last operation, and no frame was opened after it
      obtain ⟨rfl, hop⟩ := List.append_inj' hlog rfl
      cases hop
      cases hrise
      exact .inr ⟨rfl, rfl, rfl⟩
    · rw [List.concat_eq_append, ← List.cons_append, ← List.append_assoc] at hlog
      obtain ⟨rfl, hop⟩ := List.append_inj' hlog rfl
      cases hop
      rw [List.concat_eq_append, rise_concat, Option.bind_eq_some_iff] at hrise
      obtain ⟨j, hj, hshift⟩ := hrise
      exact .inl ⟨j, ⟨later, rfl, hj⟩, hshift⟩
  · rintro (⟨j, ⟨later, rfl, hrise⟩, hshift⟩ | ⟨rfl, rfl, rfl⟩)
    · refine ⟨later ++ [op], by simp, ?_⟩
      rw [rise_concat, hrise]
      exact hshift
    · exact ⟨[], rfl, rfl⟩

/-- A name was tried before the last operation, or by it. -/
theorem tried_concat_iff :
    Tried (log ++ [op]) name k ↔
      (∃ j, Tried log name j ∧ op.shift j = some k) ∨ ∃ b, op = .add name b ∧ k = 0 := by
  unfold Tried
  simp only [entered_concat_iff]
  constructor
  · rintro ⟨before, b, ⟨j, hentered, hshift⟩ | ⟨_, hop, hk⟩⟩
    · exact .inl ⟨j, ⟨before, b, hentered⟩, hshift⟩
    · exact .inr ⟨b, hop, hk⟩
  · rintro (⟨j, ⟨before, b, hentered⟩, hshift⟩ | ⟨b, hop, hk⟩)
    · exact ⟨before, b, .inl ⟨j, hentered, hshift⟩⟩
    · exact ⟨log, b, .inr ⟨rfl, hop, hk⟩⟩

/-- **What one more operation does to the entries that count**: those in open
frames stay, and a new one counts if its frame had no such name. -/
theorem holds_concat_iff :
    Holds (log ++ [op]) name b k ↔
      (∃ j, Holds log name b j ∧ op.shift j = some k) ∨
        op = .add name b ∧ k = 0 ∧ ¬ Tried log name 0 := by
  unfold Holds
  simp only [entered_concat_iff]
  constructor
  · rintro ⟨before, ⟨j, hentered, hshift⟩ | ⟨rfl, hop, hk⟩, hfirst⟩
    · exact .inl ⟨j, ⟨before, hentered, hfirst⟩, hshift⟩
    · exact .inr ⟨hop, hk, hfirst⟩
  · rintro (⟨j, ⟨before, hentered, hfirst⟩, hshift⟩ | ⟨hop, hk, hfirst⟩)
    · exact ⟨before, .inl ⟨j, hentered, hshift⟩, hfirst⟩
    · exact ⟨log, .inr ⟨rfl, hop, hk⟩, hfirst⟩

/-- A frame to which a name was added has it: the first time it counted. -/
theorem tried_iff_exists_holds : Tried log name k ↔ ∃ b, Holds log name b k := by
  refine ⟨fun h => ?_, fun ⟨b, before, hentered, _⟩ => ⟨before, b, hentered⟩⟩
  induction log using List.reverseRecOn generalizing k with
  | nil =>
    obtain ⟨before, b, later, hlog, _⟩ := h
    simp at hlog
  | append_singleton log op ih =>
    rcases tried_concat_iff.1 h with ⟨j, htried, hshift⟩ | ⟨b, rfl, rfl⟩
    · obtain ⟨b, hholds⟩ := ih htried
      exact ⟨b, holds_concat_iff.2 (.inl ⟨j, hholds, hshift⟩)⟩
    · by_cases htried : Tried log name 0
      · -- in vain: the entry that counts is an earlier one
        obtain ⟨b', hholds⟩ := ih htried
        exact ⟨b', holds_concat_iff.2 (.inl ⟨0, hholds, rfl⟩)⟩
      · exact ⟨b, holds_concat_iff.2 (.inr ⟨rfl, rfl, htried⟩)⟩

/-! ## §3. Frames -/

/-- What the frame with `k` frames within it says of a name. -/
def lookupAt (s : Scope) (k : Nat) (name : String) : Option Binding :=
  (s.inner ++ [s.outer])[k]?.bind (·.lookup name)

theorem lookup_top (s : Scope) (name : String) : s.top.lookup name = s.lookupAt 0 name := by
  obtain ⟨inner, outer⟩ := s
  cases inner <;> rfl

theorem lookupAt_push (s : Scope) (k : Nat) (name : String) :
    s.push.lookupAt k name = match k with
      | 0 => none
      | k + 1 => s.lookupAt k name := by
  cases k <;> rfl

/-- Closing a block brings each frame one nearer. -/
theorem lookupAt_pop (h : s.inner ≠ []) (k : Nat) (name : String) :
    s.pop.lookupAt k name = s.lookupAt (k + 1) name := by
  obtain ⟨inner, outer⟩ := s
  cases inner with
  | nil => exact absurd rfl h
  | cons frame frames => rfl

/-- A name is added to the innermost frame, and all else stays. -/
theorem lookupAt_of_add {s' : Scope} (h : s.add name b = .ok s') (k : Nat) (x : String) :
    s'.lookupAt k x = if k = 0 ∧ x = name then some b else s.lookupAt k x := by
  have hframe : ∀ frame : Frame, List.lookup x ((name, b) :: frame) =
      if x = name then some b else frame.lookup x := by
    intro frame
    rw [List.lookup_cons]
    by_cases hx : x = name
    · simp [hx]
    · rw [beq_eq_false_iff_ne.2 hx, if_neg hx]
  obtain ⟨inner, outer⟩ := s
  unfold add at h
  split at h
  · cases h
  · cases inner with
    | nil =>
      cases h
      cases k <;> simp [lookupAt, hframe]
    | cons frame frames =>
      cases h
      cases k <;> simp [lookupAt, hframe]

/-- A name is refused if the innermost frame has it. -/
theorem step_add_of_some {first : Binding} (h : s.lookupAt 0 name = some first) (b : Binding) :
    s.step (.add name b) = (.refused ⟨first, b⟩, s) := by
  rw [← lookup_top] at h
  have hadd : s.add name b = .error ⟨first, b⟩ := by
    unfold add
    rw [h]
  unfold step
  dsimp only
  rw [hadd]

/-- A name is added if the innermost frame does not have it. -/
theorem step_add_of_none (h : s.lookupAt 0 name = none) (b : Binding) :
    ∃ s', s.add name b = .ok s' ∧ s.step (.add name b) = (.added, s') := by
  rw [← lookup_top] at h
  obtain ⟨s', hs'⟩ := exists_add_iff.2 h
  refine ⟨s', hs', ?_⟩
  unfold step
  dsimp only
  rw [hs']

/-- A name means what the innermost frame that has it says. -/
theorem get?_eq_some_iff :
    s.get? name = some b ↔
      ∃ k, s.lookupAt k name = some b ∧ ∀ j < k, s.lookupAt j name = none := by
  unfold get? lookupAt
  generalize s.inner ++ [s.outer] = frames
  induction frames with
  | nil => simp
  | cons frame frames ih =>
    rw [List.findSome?_cons]
    cases hframe : frame.lookup name with
    | some first =>
      -- the innermost frame has the name, so no other one is asked
      constructor
      · intro h
        exact ⟨0, by simpa [hframe] using h, by simp⟩
      · rintro ⟨k, hk, hnone⟩
        cases k with
        | zero => simpa [hframe] using hk
        | succ k => simpa [hframe] using hnone 0 (Nat.succ_pos k)
    | none =>
      refine ih.trans ⟨?_, ?_⟩
      · rintro ⟨k, hk, hnone⟩
        refine ⟨k + 1, by simpa using hk, fun j hj => ?_⟩
        cases j with
        | zero => simpa using hframe
        | succ j => simpa using hnone j (by omega)
      · rintro ⟨k, hk, hnone⟩
        cases k with
        | zero => simp [hframe] at hk
        | succ k =>
          exact ⟨k, by simpa using hk, fun j hj => by simpa using hnone (j + 1) (by omega)⟩

/-- A name is unknown if no frame binds it. -/
theorem get?_eq_none_iff : s.get? name = none ↔ ∀ k, s.lookupAt k name = none := by
  constructor
  · intro h k
    induction k using Nat.strongRecOn with
    | ind k ih =>
      cases hk : s.lookupAt k name with
      | none => rfl
      | some b =>
        rw [get?_eq_some_iff.2 ⟨k, hk, ih⟩] at h
        cases h
  · intro h
    cases hget : s.get? name with
    | none => rfl
    | some b =>
      obtain ⟨k, hk, _⟩ := get?_eq_some_iff.1 hget
      rw [h k] at hk
      cases hk

/-! ## §4. A scope and its log -/

/-- The scope has the blocks that are open after the log, and in its frames the
entries that count. -/
structure Reflected (log : List Op) (s : Scope) : Prop where
  depth : rise log 0 = some s.inner.length
  lookup : ∀ {k name b}, s.lookupAt k name = some b ↔ Holds log name b k

namespace Reflected

variable {log : List Op} {s : Scope}

theorem lookup_none (h : Reflected log s) {k : Nat} {name : String} :
    s.lookupAt k name = none ↔ ¬ Tried log name k := by
  rw [tried_iff_exists_holds, Option.eq_none_iff_forall_ne_some]
  simp only [ne_eq, h.lookup, not_exists]

/-- **One operation keeps it so**, unless it closes a block and there is
none. -/
theorem step (h : Reflected log s) {op : Op} {d : Nat}
    (hop : op.shift s.inner.length = some d) : Reflected (log ++ [op]) (s.step op).2 := by
  have hdepth : rise (log ++ [op]) 0 = some d := by
    rw [rise_concat, h.depth]
    exact hop
  cases op with
  | push =>
    cases hop
    refine ⟨hdepth, fun {k name b} => ?_⟩
    show s.push.lookupAt k name = some b ↔ _
    rw [lookupAt_push, holds_concat_iff]
    cases k <;> simp [Op.shift, h.lookup]
  | pop =>
    have hinner : s.inner ≠ [] := by
      intro hnil
      rw [hnil] at hop
      cases hop
    obtain ⟨frame, frames, hcons⟩ := List.exists_cons_of_ne_nil hinner
    have hd : d = s.pop.inner.length := by
      rw [hcons] at hop
      cases hop
      simp [pop, hcons]
    refine ⟨hd ▸ hdepth, fun {k name b} => ?_⟩
    show s.pop.lookupAt k name = some b ↔ _
    rw [lookupAt_pop hinner, holds_concat_iff, h.lookup]
    -- the frame with `k + 1` frames within it is the one that has `k` now
    constructor
    · intro hholds
      exact .inl ⟨k + 1, hholds, rfl⟩
    · rintro (⟨j, hholds, hshift⟩ | ⟨hadd, _⟩)
      · cases j with
        | zero => cases hshift
        | succ j =>
          cases hshift
          exact hholds
      · cases hadd
  | add name b =>
    cases hop
    cases hfirst : s.lookupAt 0 name with
    | some first =>
      -- refused: the name was tried in this frame before
      have htried : Tried log name 0 := tried_iff_exists_holds.2 ⟨first, h.lookup.1 hfirst⟩
      rw [step_add_of_some hfirst]
      refine ⟨hdepth, fun {k x c} => ?_⟩
      rw [holds_concat_iff, h.lookup]
      simp only [Op.shift, Option.some.injEq, exists_eq_right, Op.add.injEq]
      grind
    | none =>
      have hfree : ¬ Tried log name 0 := h.lookup_none.1 hfirst
      obtain ⟨s', hs', hstep⟩ := step_add_of_none hfirst b
      rw [hstep]
      refine ⟨length_of_add hs' ▸ hdepth, fun {k x c} => ?_⟩
      rw [lookupAt_of_add hs', holds_concat_iff]
      by_cases hnew : k = 0 ∧ x = name
      · obtain ⟨rfl, rfl⟩ := hnew
        have hnone : ¬ Holds log x c 0 := fun hholds =>
          hfree (tried_iff_exists_holds.2 ⟨c, hholds⟩)
        simp [Op.shift, hnone, hfree]
      · rw [if_neg hnew, h.lookup]
        simp only [Op.shift, Option.some.injEq, exists_eq_right, Op.add.injEq]
        grind
  | get name =>
    cases hop
    refine ⟨hdepth, fun {k x c} => ?_⟩
    show s.lookupAt k x = some c ↔ _
    rw [holds_concat_iff, h.lookup]
    simp [Op.shift]

end Reflected

/-- **A scope has the entries that count in its log**, as long as the global
frame is not closed. -/
theorem reflected_after (h : Nested log) : Reflected log (empty.after log) := by
  induction log using List.reverseRecOn with
  | nil =>
    refine ⟨rfl, fun {k name b} => ?_⟩
    have hholds : ¬ Holds [] name b k := by
      rintro ⟨before, ⟨later, hlog, _⟩, _⟩
      simp at hlog
    have hlookup : empty.lookupAt k name = none := by cases k <;> rfl
    show empty.lookupAt k name = some b ↔ _
    simp [hlookup, hholds]
  | append_singleton log op ih =>
    obtain ⟨d, hd⟩ := Option.ne_none_iff_exists'.1 h
    rw [rise_concat, Option.bind_eq_some_iff] at hd
    obtain ⟨depth, hdepth, hshift⟩ := hd
    have hlog : Reflected log (empty.after log) := ih h.of_append
    rw [hlog.depth] at hdepth
    cases hdepth
    rw [after_append]
    exact hlog.step hshift

/-! ## §5. Closed blocks -/

/-- **Operations that close no more than they open change only the innermost
frames**: the `d + 1` that there are, which become `k + 1`. -/
theorem inner_after {d : Nat} (hrise : rise ops d = some k) {top base : List Frame}
    (hinner : s.inner = top ++ base) (htop : top.length = d + 1) :
    ∃ top', (s.after ops).inner = top' ++ base ∧ top'.length = k + 1 ∧
      (s.after ops).outer = s.outer := by
  induction ops generalizing s d top with
  | nil =>
    cases hrise
    exact ⟨top, hinner, htop, rfl⟩
  | cons op ops ih =>
    obtain ⟨d', hshift, hrest⟩ := Option.bind_eq_some_iff.1 hrise
    -- one operation changes only the innermost frames
    have hstep : ∃ top', (s.step op).2.inner = top' ++ base ∧ top'.length = d' + 1 ∧
        (s.step op).2.outer = s.outer := by
      obtain ⟨frame, frames, rfl⟩ := List.exists_cons_of_length_eq_add_one htop
      cases op with
      | push =>
        cases hshift
        refine ⟨[] :: frame :: frames, ?_, by simpa using htop, rfl⟩
        show [] :: s.inner = _
        rw [hinner]
        rfl
      | pop =>
        cases d with
        | zero => cases hshift
        | succ d =>
          cases hshift
          refine ⟨frames, ?_, by simpa using htop, rfl⟩
          show s.inner.tail = _
          rw [hinner]
          rfl
      | add name b =>
        cases hshift
        cases hfirst : s.lookupAt 0 name with
        | some first =>
          rw [step_add_of_some hfirst]
          exact ⟨frame :: frames, hinner, htop, rfl⟩
        | none =>
          obtain ⟨s', hs', hstep⟩ := step_add_of_none hfirst b
          rw [hstep]
          obtain ⟨hi, ho⟩ := add_inner hinner hs'
          exact ⟨((name, b) :: frame) :: frames, hi, htop, ho⟩
      | get name =>
        cases hshift
        exact ⟨frame :: frames, hinner, htop, rfl⟩
    obtain ⟨top', hinner', htop', houter'⟩ := hstep
    obtain ⟨last, hlast, hlen, houter⟩ := ih hrest hinner' htop'
    exact ⟨last, hlast, hlen, houter.trans houter'⟩

/-- **A block that was closed leaves the scope as it was.** -/
theorem after_block (h : Matched ops) (s : Scope) : s.after (.push :: ops ++ [.pop]) = s := by
  have hpush : s.push.inner = [[]] ++ s.inner := rfl
  obtain ⟨top, hinner, hlen, houter⟩ := inner_after h hpush rfl
  obtain ⟨frame, rfl⟩ := List.length_eq_one_iff.1 hlen
  show s.push.after (ops ++ [.pop]) = s
  rw [after_append]
  show (s.push.after ops).pop = s
  unfold pop
  rw [hinner, houter]
  rfl

/-! ## §6. Answers from the log -/

section Answers

variable {log : List Op} (hlog : Nested log)
include hlog

/-- A name is added if it was not tried in this block. -/
theorem answer_add_iff (name : String) (b : Binding) :
    answer log (.add name b) = .added ↔ ¬ Tried log name 0 := by
  rw [← (reflected_after hlog).lookup_none]
  unfold answer
  cases hfirst : (empty.after log).lookupAt 0 name with
  | some first => simp [step_add_of_some hfirst]
  | none =>
    obtain ⟨s', _, hstep⟩ := step_add_of_none hfirst b
    simp [hstep]

/-- It is refused for the binding that the block holds. -/
theorem answer_refused_iff (name : String) (b : Binding) (d : Duplicate) :
    answer log (.add name b) = .refused d ↔ Holds log name d.first 0 ∧ d.second = b := by
  rw [← (reflected_after hlog).lookup]
  unfold answer
  cases hfirst : (empty.after log).lookupAt 0 name with
  | some first =>
    obtain ⟨first', second⟩ := d
    simp [step_add_of_some hfirst, eq_comm]
  | none =>
    obtain ⟨s', _, hstep⟩ := step_add_of_none hfirst b
    simp [hstep]

/-- A name is found as what it means. -/
theorem answer_found_iff (name : String) (b : Binding) :
    answer log (.get name) = .found (some b) ↔ Means log name b := by
  have hreflected := reflected_after hlog
  show Answer.found ((empty.after log).get? name) = .found (some b) ↔ _
  rw [Answer.found.injEq, get?_eq_some_iff]
  simp only [Means, hreflected.lookup, hreflected.lookup_none]

/-- A name is unknown if it was never tried. -/
theorem answer_unknown_iff (name : String) :
    answer log (.get name) = .found none ↔ ∀ k, ¬ Tried log name k := by
  have hreflected := reflected_after hlog
  show Answer.found ((empty.after log).get? name) = .found none ↔ _
  rw [Answer.found.injEq, get?_eq_none_iff]
  simp only [hreflected.lookup_none]

/-- The entries that count are those that were added when they were made. -/
theorem holds_iff_added (name : String) (b : Binding) (k : Nat) :
    Holds log name b k ↔
      ∃ before, Entered log before name b k ∧ answer before (.add name b) = .added := by
  refine exists_congr fun before => and_congr_right fun hentered => ?_
  obtain ⟨later, rfl, _⟩ := hentered
  exact (answer_add_iff hlog.of_append name b).symm

end Answers

/-- An addition that is refused changes nothing. -/
theorem after_refused {d : Duplicate} (h : answer log (.add name b) = .refused d) :
    empty.after (log ++ [.add name b]) = empty.after log := by
  unfold answer at h
  rw [after_append]
  show ((empty.after log).step (.add name b)).2 = _
  cases hfirst : (empty.after log).lookupAt 0 name with
  | some first => rw [step_add_of_some hfirst]
  | none =>
    obtain ⟨s', _, hstep⟩ := step_add_of_none hfirst b
    rw [hstep] at h
    cases h

/-- **A scope answers by its log.**  A name means what was added to it in the
innermost open frame that has one.  It can be added unless the innermost frame
has it, and then the first entry is reported.  Neither an addition that was
refused nor a closed block, whatever was done in it, can be told from later
answers. -/
theorem answers_of_log {log : List Op} (hlog : Nested log) :
    (∀ name b, answer log (.get name) = .found (some b) ↔ Means log name b) ∧
    (∀ name, answer log (.get name) = .found none ↔ ∀ k, ¬ Tried log name k) ∧
    (∀ name b k, Holds log name b k ↔
      ∃ before, Entered log before name b k ∧ answer before (.add name b) = .added) ∧
    (∀ name b, answer log (.add name b) = .added ↔ ¬ Tried log name 0) ∧
    (∀ name b d, answer log (.add name b) = .refused d ↔
      Holds log name d.first 0 ∧ d.second = b) ∧
    (∀ name b d more, answer log (.add name b) = .refused d →
      (empty.after (log ++ [.add name b])).answers more = (empty.after log).answers more) ∧
    (∀ ops more, Matched ops →
      (empty.after (log ++ (.push :: ops ++ [.pop]))).answers more =
        (empty.after log).answers more) := by
  refine ⟨answer_found_iff hlog, answer_unknown_iff hlog, holds_iff_added hlog,
    answer_add_iff hlog, answer_refused_iff hlog, ?_, ?_⟩
  · intro name b d more hrefused
    rw [after_refused hrefused]
  · intro ops more hmatched
    rw [after_append, after_block hmatched]

/-- A name that is hidden in a block, where it is added once more in vain, and
a block within that is closed again. -/
def shadowing : List Op :=
  [.add "x" (.var ⟨0⟩), .push, .add "x" (.var ⟨1⟩), .add "x" (.func ⟨2⟩),
    .push, .add "x" (.var ⟨3⟩), .add "y" (.var ⟨4⟩), .pop]

/-- A log with a name shadowed, refused and found again. -/
theorem answers_of_log_shadowing :
    Nested shadowing ∧ Means shadowing "x" (.var ⟨1⟩) ∧ (∀ k, ¬ Tried shadowing "y" k) ∧
      Holds shadowing "x" (.var ⟨1⟩) 0 ∧
      (empty.after (shadowing ++ [.add "x" (.var ⟨5⟩)])).answers [.pop, .get "x"] =
        (empty.after shadowing).answers [.pop, .get "x"] ∧
      (empty.after (shadowing ++ (.push :: [.add "x" (.var ⟨5⟩)] ++ [.pop]))).answers [.get "x"] =
        (empty.after shadowing).answers [.get "x"] := by
  have hnested : Nested shadowing := by decide
  have hrefused : answer shadowing (.add "x" (.var ⟨5⟩)) = .refused ⟨.var ⟨1⟩, .var ⟨5⟩⟩ := by
    decide +kernel
  obtain ⟨hfound, hunknown, _, _, hduplicate, hvain, hblock⟩ := answers_of_log hnested
  exact ⟨hnested, (hfound _ _).1 (by decide +kernel), (hunknown _).1 (by decide +kernel),
    ((hduplicate _ _ _).1 hrefused).1, hvain _ _ _ _ hrefused, hblock _ _ (by decide)⟩

end MiniC.Scope
