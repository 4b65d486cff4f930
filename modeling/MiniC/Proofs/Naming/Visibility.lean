/-
  MiniC.Proofs.Naming.Visibility

  **Where a declaration can be seen.**

  A declaration is visible at a later place of a text if its block is still
  open there, that is, if from the one to the other there are never fewer
  blocks open than at the declaration (`Visible`).  A name refers to the
  innermost of the visible declarations of that name (`Refers`).  All this is
  said of the text alone.

  A scope reflects a text if its frames hold the visible declarations, each
  at its level (`Reflects`).  Opening a block, closing one and declaring a
  name keep it so, and looking up a name in the scope then finds what the name
  refers to (`Reflects.refers`).
-/
import MiniC.Proofs.Reading.Words
import MiniC.Proofs.Typing.Tables

namespace MiniC

variable {m : Mark} {x : String} {t : List Mark} {j : Nat} {d : Int} {Γ : Symbols}

/-! ## §1. Declarations in a text -/

/-- The name that a mark declares. -/
def Mark.declared? : Mark → Option String
  | .varDecl x _ => some x
  | .funcDecl f => some f
  | _ => none

/-- The mark declares a variable. -/
def Mark.isVarDecl : Mark → Bool
  | .varDecl .. => true
  | _ => false

/-- The variable that a mark declares, and its line. -/
def Mark.varDecl? : Mark → Option (String × Nat)
  | .varDecl x line => some (x, line)
  | _ => none

/-- The mark neither declares a name nor opens or closes a block. -/
def Mark.isNeutral : Mark → Bool
  | .word _ | .varUse _ | .funcUse _ => true
  | _ => false

/-- How many blocks are open at the end of a text. -/
def depth (t : List Mark) : Int := t.count .opens - t.count .closes

@[simp] theorem depth_append (a b : List Mark) : depth (a ++ b) = depth a + depth b := by
  simp only [depth, List.count_append]
  omega

@[simp] theorem depth_opens : depth [.opens] = 1 := rfl

@[simp] theorem depth_closes : depth [.closes] = -1 := rfl

theorem depth_cons (m : Mark) (t : List Mark) : depth (m :: t) = depth [m] + depth t :=
  depth_append [m] t

theorem depth_of_declared? (h : m.declared? = some x) : depth [m] = 0 := by
  cases m <;> first | rfl | cases h

theorem depth_of_isNeutral (h : m.isNeutral = true) : depth [m] = 0 := by
  cases m <;> first | rfl | cases h

theorem declared?_of_isNeutral (h : m.isNeutral = true) : m.declared? = none := by
  cases m <;> first | rfl | cases h

theorem varDecl?_of_isNeutral (h : m.isNeutral = true) : m.varDecl? = none := by
  cases m <;> first | rfl | cases h

/-- The text declares a name at a place. -/
def DeclaresAt (t : List Mark) (j : Nat) (x : String) : Prop :=
  ∃ m, t[j]? = some m ∧ m.declared? = some x

/-- A declaration of `x` at place `j`, with `d` blocks around it, which are
all still open at the end of the text. -/
structure Visible (t : List Mark) (x : String) (j : Nat) (d : Int) : Prop where
  declares : DeclaresAt t j x
  stays : ∀ k, j ≤ k → k ≤ t.length → depth (t.take j) ≤ depth (t.take k)
  level : depth (t.take j) = d

theorem DeclaresAt.lt (h : DeclaresAt t j x) : j < t.length := by
  obtain ⟨m, hm, _⟩ := h
  exact (List.getElem?_eq_some_iff.1 hm).1

/-- Nothing is visible deeper than the text is. -/
theorem Visible.le_depth (h : Visible t x j d) : d ≤ depth t := by
  have hlt := h.declares.lt
  have hle := h.stays t.length (by omega) (Nat.le_refl _)
  rw [List.take_length] at hle
  rw [← h.level]
  exact hle

theorem declaresAt_append (s : List Mark) (h : j < t.length) :
    DeclaresAt (t ++ s) j x ↔ DeclaresAt t j x := by
  rw [DeclaresAt, DeclaresAt, List.getElem?_append_left h]

/-- The last mark declares its own name. -/
theorem declaresAt_length : DeclaresAt (t ++ [m]) t.length x ↔ m.declared? = some x := by
  have hm : (t ++ [m])[t.length]? = some m := List.getElem?_concat_length
  constructor
  · rintro ⟨m', hm', hx⟩
    rw [hm] at hm'
    cases hm'
    exact hx
  · intro hx
    exact ⟨m, hm, hx⟩

/-- **One mark more.**  What was visible stays so while enough blocks are
open, and what the mark declares is visible. -/
theorem visible_concat :
    Visible (t ++ [m]) x j d ↔
      (Visible t x j d ∧ d ≤ depth (t ++ [m])) ∨
        (j = t.length ∧ m.declared? = some x ∧ d = depth t) := by
  have htake : ∀ {k}, k ≤ t.length → (t ++ [m]).take k = t.take k :=
    fun hk => List.take_append_of_le_length hk
  constructor
  · intro h
    have hj := h.declares.lt
    rw [List.length_append, List.length_singleton] at hj
    by_cases hlt : j < t.length
    · -- declared before the mark
      left
      refine ⟨⟨(declaresAt_append _ hlt).1 h.declares, ?_, ?_⟩, h.le_depth⟩
      · intro k hjk hk
        have hle := h.stays k hjk (by rw [List.length_append]; omega)
        rwa [htake hk, htake (by omega)] at hle
      · rw [← htake (by omega)]
        exact h.level
    · -- declared by the mark
      right
      have hj : j = t.length := by omega
      subst hj
      refine ⟨rfl, declaresAt_length.1 h.declares, ?_⟩
      rw [← h.level, htake (Nat.le_refl _), List.take_length]
  · rintro (⟨h, hd⟩ | ⟨rfl, hx, rfl⟩)
    · have hlt := h.declares.lt
      refine ⟨(declaresAt_append _ hlt).2 h.declares, ?_, ?_⟩
      · intro k hjk hk
        rw [htake (by omega)]
        by_cases hkt : k ≤ t.length
        · rw [htake hkt]
          exact h.stays k hjk hkt
        · -- the only place left is the end
          have hend : (t ++ [m]).take k = t ++ [m] := List.take_of_length_le (by simp; omega)
          rw [hend, h.level]
          exact hd
      · rw [htake (by omega)]
        exact h.level
    · refine ⟨declaresAt_length.2 hx, ?_, ?_⟩
      · intro k hk hk'
        rw [htake (Nat.le_refl _), List.take_length]
        by_cases hkt : k ≤ t.length
        · refine Int.le_of_eq ?_
          rw [show k = t.length by omega, htake (Nat.le_refl _), List.take_length]
        · have hend : (t ++ [m]).take k = t ++ [m] := List.take_of_length_le (by simp; omega)
          rw [hend, depth_append, depth_of_declared? hx]
          omega
      · rw [htake (Nat.le_refl _), List.take_length]

/-- A mark that declares nothing and closes no block changes nothing. -/
theorem visible_concat_of_declared?_eq_none (hm : m.declared? = none) (hd : 0 ≤ depth [m]) :
    Visible (t ++ [m]) x j d ↔ Visible t x j d := by
  rw [visible_concat, hm, depth_append]
  constructor
  · rintro (⟨h, _⟩ | ⟨_, hx, _⟩)
    · exact h
    · cases hx
  · intro h
    have hle := h.le_depth
    exact .inl ⟨h, by omega⟩

theorem visible_neutral (hm : m.isNeutral = true) : Visible (t ++ [m]) x j d ↔ Visible t x j d :=
  visible_concat_of_declared?_eq_none (declared?_of_isNeutral hm)
    (Int.le_of_eq (depth_of_isNeutral hm).symm)

theorem visible_opens : Visible (t ++ [.opens]) x j d ↔ Visible t x j d :=
  visible_concat_of_declared?_eq_none rfl (by rw [depth_opens]; decide)

/-- Closing a block hides what it declared. -/
theorem visible_closes : Visible (t ++ [.closes]) x j d ↔ Visible t x j d ∧ d < depth t := by
  rw [visible_concat, depth_append, depth_closes]
  constructor
  · rintro (⟨h, hd⟩ | ⟨_, hx, _⟩)
    · exact ⟨h, by omega⟩
    · cases hx
  · rintro ⟨h, hd⟩
    exact .inl ⟨h, by omega⟩

/-- A declaration is visible at its depth, with all before it. -/
theorem visible_declares {y : String} (hm : m.declared? = some y) :
    Visible (t ++ [m]) x j d ↔ Visible t x j d ∨ (j = t.length ∧ x = y ∧ d = depth t) := by
  rw [visible_concat, depth_append, depth_of_declared? hm, hm]
  constructor
  · rintro (⟨h, _⟩ | ⟨hj, hx, hd⟩)
    · exact .inl h
    · cases hx
      exact .inr ⟨hj, rfl, hd⟩
  · rintro (h | ⟨hj, rfl, hd⟩)
    · have hle := h.le_depth
      exact .inl ⟨h, by omega⟩
    · exact .inr ⟨hj, rfl, hd⟩

/-- A visible declaration of `x`, with more blocks around it than any other or
as many. -/
def Innermost (t : List Mark) (x : String) (j : Nat) : Prop :=
  ∃ d, Visible t x j d ∧ ∀ {j' d'}, Visible t x j' d' → d' ≤ d

/-- No name is declared twice in a block, but for functions: a second
declaration, with as many blocks around it and those of the first still open,
and the first are both the head of a function. -/
def Distinct (t : List Mark) : Prop :=
  ∀ {i j : Nat} {x : String}, Visible (t.take j) x i (depth (t.take j)) → DeclaresAt t j x →
    t[i]? = some (.funcDecl x) ∧ t[j]? = some (.funcDecl x)

/-- Names stay apart if the new one is not taken at this depth. -/
theorem distinct_concat (h : Distinct t)
    (hm : ∀ {i : Nat} {x : String}, Visible t x i (depth t) → m.declared? = some x →
      t[i]? = some (.funcDecl x) ∧ m = .funcDecl x) :
    Distinct (t ++ [m]) := by
  intro i j x hi hj
  have hlt := hj.lt
  rw [List.length_append, List.length_singleton] at hlt
  have hit : i < (t ++ [m]).length := by
    have hi := hi.declares.lt
    rw [List.length_take] at hi
    omega
  by_cases hjt : j < t.length
  · rw [List.take_append_of_le_length (by omega)] at hi
    have hij := hi.declares.lt
    rw [List.length_take] at hij
    obtain ⟨h1, h2⟩ := h hi ((declaresAt_append _ hjt).1 hj)
    rw [List.getElem?_append_left (by omega), List.getElem?_append_left hjt]
    exact ⟨h1, h2⟩
  · have hj' : j = t.length := by omega
    subst hj'
    rw [List.take_append_of_le_length (Nat.le_refl _), List.take_length] at hi
    obtain ⟨h1, rfl⟩ := hm hi (declaresAt_length.1 hj)
    rw [List.getElem?_append_left hi.declares.lt, List.getElem?_concat_length]
    exact ⟨h1, rfl⟩

/-! ## §2. What a name refers to -/

/-- A declaration and what it stands for: a variable by how many were declared
before it, a function by its name. -/
inductive Declares (Γ : Symbols) (t : List Mark) (j : Nat) : Binding → Prop where
  | var {x : String} {line : Nat} (h : t[j]? = some (.varDecl x line)) :
      Declares Γ t j (.var ⟨(t.take j).countP Mark.isVarDecl⟩)
  | func {f : FuncId} {sym : FuncSymbol} (h : t[j]? = some (.funcDecl sym.name))
      (hf : Γ.func? f = some sym) : Declares Γ t j (.func f)

/-- What was declared stays so. -/
theorem Declares.append {b : Binding} (h : Declares Γ t j b) (s : List Mark) :
    Declares Γ (t ++ s) j b := by
  cases h with
  | var h =>
    have hlt := (List.getElem?_eq_some_iff.1 h).1
    have htake : (t ++ s).take j = t.take j := List.take_append_of_le_length (Nat.le_of_lt hlt)
    rw [← htake]
    exact .var ((List.getElem?_append_left hlt).trans h)
  | func h hf =>
    have hlt := (List.getElem?_eq_some_iff.1 h).1
    exact .func ((List.getElem?_append_left hlt).trans h) hf

/-- It stays so in a longer table. -/
theorem Declares.mono {Γ' : Symbols} {b : Binding} (h : Declares Γ t j b) (hext : Γ.Extends Γ') :
    Declares Γ' t j b := by
  cases h with
  | var h => exact .var h
  | func h hf =>
    obtain ⟨sym', hf', hname, _⟩ := hext.func hf
    exact .func (hname ▸ h) hf'

/-- What a declaration of `x` as a function stands for has that name. -/
theorem Declares.of_func {f : FuncId} (h : Declares Γ t j (.func f)) (hx : DeclaresAt t j x) :
    t[j]? = some (.funcDecl x) ∧ ∃ sym, Γ.func? f = some sym ∧ sym.name = x := by
  cases h with
  | func h hf =>
    obtain ⟨m, hm, hx⟩ := hx
    rw [h] at hm
    cases hm
    cases hx
    exact ⟨h, _, hf, rfl⟩

/-- A name in an expression, with the text before it. -/
structure Occurrence where
  before : List Mark
  name : String
  /-- The name is that of a function that is called. -/
  isCall : Bool
  deriving DecidableEq, Repr

/-- Stands for a function. -/
def Binding.isFunc : Binding → Bool
  | .func _ => true
  | .var _ => false

/-- **What a name refers to**: what its innermost visible declaration stands
for. -/
structure Refers (Γ : Symbols) (o : Occurrence) (b : Binding) : Prop where
  kind : b.isFunc = o.isCall
  declared : ∃ j, Innermost o.before o.name j
  innermost : ∀ {j}, Innermost o.before o.name j → Declares Γ o.before j b

theorem Refers.mono {Γ Γ' : Symbols} {o : Occurrence} {b : Binding} (h : Refers Γ o b)
    (hext : Γ.Extends Γ') : Refers Γ' o b :=
  ⟨h.kind, h.declared, fun hj => (h.innermost hj).mono hext⟩

/-- The occurrence that a mark is, after the text `before`. -/
def Mark.occurrence? (before : List Mark) : Mark → Option Occurrence
  | .varUse x => some ⟨before, x, false⟩
  | .funcUse f => some ⟨before, f, true⟩
  | _ => none

/-- The occurrences of names in a text that continues `before`. -/
def occurrencesFrom (before : List Mark) : List Mark → List Occurrence
  | [] => []
  | m :: ms => (m.occurrence? before).toList ++ occurrencesFrom (before ++ [m]) ms

/-- Names occur in order. -/
theorem occurrencesFrom_append (t a b : List Mark) :
    occurrencesFrom t (a ++ b) = occurrencesFrom t a ++ occurrencesFrom (t ++ a) b := by
  induction a generalizing t with
  | nil => rw [List.nil_append, List.append_nil, occurrencesFrom, List.nil_append]
  | cons m a ih =>
    rw [List.cons_append, occurrencesFrom, occurrencesFrom, ih, List.append_assoc,
      List.append_assoc, List.singleton_append]

/-! ## §3. Levels of a scope -/

namespace Scope

variable {s : Scope}

/-- The open frames, the global one first. -/
def levels (s : Scope) : List Frame := s.outer :: s.inner.reverse

theorem levels_push (s : Scope) : s.push.levels = s.levels ++ [[]] := by
  simp [levels, push]

theorem levels_pop (h : 1 < s.levels.length) : ∃ frame, s.levels = s.pop.levels ++ [frame] := by
  cases hi : s.inner with
  | nil => simp [levels, hi] at h
  | cons frame frames => exact ⟨frame, by simp [levels, pop, hi]⟩

/-- Adding a name changes the last level, which did not have it. -/
theorem levels_of_add {s' : Scope} {x : String} {b : Binding} (h : s.add x b = .ok s') :
    ∃ ls frame, s.levels = ls ++ [frame] ∧ s'.levels = ls ++ [(x, b) :: frame] ∧
      frame.lookup x = none := by
  unfold add at h
  split at h
  · cases h
  · rename_i hnone
    cases hi : s.inner with
    | nil =>
      rw [hi] at h
      cases h
      have htop : s.top = s.outer := by rw [top, hi, List.headD_nil]
      exact ⟨[], s.outer, by simp [levels, hi], by simp [levels], htop ▸ hnone⟩
    | cons frame frames =>
      rw [hi] at h
      cases h
      have htop : s.top = frame := by rw [top, hi, List.headD_cons]
      exact ⟨s.outer :: frames.reverse, frame, by simp [levels, hi], by simp [levels],
        htop ▸ hnone⟩

/-- A name means what the last level that has it says. -/
theorem level_of_get? {x : String} {b : Binding} (h : s.get? x = some b) :
    ∃ (d : Nat) (frame : Frame), s.levels[d]? = some frame ∧ frame.lookup x = some b ∧
      ∀ {d' frame'}, s.levels[d']? = some frame' → (frame'.lookup x).isSome → d' ≤ d := by
  have hrev : s.inner ++ [s.outer] = s.levels.reverse := by simp [levels]
  rw [get?, hrev, List.findSome?_eq_some_iff] at h
  obtain ⟨before, frame, after, hsplit, hframe, hnone⟩ := h
  have hlevels : s.levels = after.reverse ++ frame :: before.reverse := by
    rw [← List.reverse_reverse s.levels, hsplit]
    simp
  refine ⟨after.length, frame, ?_, hframe, ?_⟩
  · simp [hlevels]
  · intro d' frame' hd' hsome
    by_contra hlt
    -- a later level is one of those that do not have the name
    have hmem : frame' ∈ before := by
      rw [hlevels, List.getElem?_append_right (by simp; omega), List.length_reverse,
        List.getElem?_cons, if_neg (by omega)] at hd'
      exact List.mem_reverse.1 (List.mem_of_getElem? hd')
    rw [hnone frame' hmem] at hsome
    cases hsome

end Scope

/-! ## §4. Scopes that reflect a text -/

/-- **A scope reflects a text**: its frames hold the visible declarations,
each at its level and for what it stands for. -/
structure Reflects (s : Scope) (Γ : Symbols) (t : List Mark) : Prop where
  /-- There is a frame for each open block, and the global one. -/
  height : (s.levels.length : Int) = depth t + 1
  /-- What a frame has is declared at its level. -/
  sound : ∀ {d : Nat} {frame : Frame} {x : String} {b : Binding}, s.levels[d]? = some frame →
    frame.lookup x = some b → ∃ j, Visible t x j d
  /-- What is visible is in the frame of its level. -/
  complete : ∀ {d : Int} {x : String} {j : Nat}, Visible t x j d →
    ∃ (k : Nat) (frame : Frame) (b : Binding), d = k ∧ s.levels[k]? = some frame ∧
      frame.lookup x = some b ∧ Declares Γ t j b
  distinct : Distinct t
  /-- The variables of the table are those declared, in order. -/
  vars : Γ.vars.rows.toList.map (fun sym => (sym.name, sym.line)) = t.filterMap Mark.varDecl?

namespace Reflects

variable {s s' : Scope} {Γ Γ' : Symbols} {t : List Mark}
variable {x : String}

/-- The empty text and table agree. -/
theorem empty : Reflects {} {} [] := by
  refine ⟨rfl, ?_, ?_, ?_, rfl⟩
  · intro d frame x b hd hx
    cases d with
    | zero =>
      cases hd
      cases hx
    | succ d => cases hd
  · intro d x j h
    exact absurd h.declares.lt (Nat.not_lt_zero _)
  · intro i j x _ hj
    exact absurd hj.lt (Nat.not_lt_zero _)

/-- **Looking up a name finds what it refers to.** -/
theorem refers (h : Reflects s Γ t) {b : Binding} (hget : s.get? x = some b) {isCall : Bool}
    (hkind : b.isFunc = isCall) : Refers Γ ⟨t, x, isCall⟩ b := by
  obtain ⟨d, frame, hd, hframe, hlast⟩ := Scope.level_of_get? hget
  have hmax : ∀ {j' d'}, Visible t x j' d' → d' ≤ d := by
    intro j' d' hj'
    obtain ⟨k, frame', b', rfl, hk, hlookup, _⟩ := h.complete hj'
    exact Int.ofNat_le.2 (hlast hk (by rw [hlookup]; rfl))
  obtain ⟨j, hj⟩ := h.sound hd hframe
  refine ⟨hkind, ⟨j, d, hj, hmax⟩, ?_⟩
  rintro j' ⟨d', hj', hmax'⟩
  -- an innermost declaration is at the level where the name was found
  have hle := hmax hj'
  have hge := hmax' hj
  obtain ⟨k, frame', b', rfl, hk, hlookup, hdeclares⟩ := h.complete hj'
  have hkd : k = d := by omega
  subst hkd
  rw [hd] at hk
  cases hk
  rw [hframe] at hlookup
  cases hlookup
  exact hdeclares

/-- A mark that is neither a declaration nor the bound of a block changes
nothing. -/
theorem neutral (h : Reflects s Γ t) {m : Mark} (hm : m.isNeutral = true) :
    Reflects s Γ (t ++ [m]) := by
  refine ⟨?_, ?_, ?_, ?_, ?_⟩
  · rw [depth_append, depth_of_isNeutral hm, Int.add_zero]
    exact h.height
  · intro d frame x b hd hx
    obtain ⟨j, hj⟩ := h.sound hd hx
    exact ⟨j, (visible_neutral hm).2 hj⟩
  · intro d x j hj
    obtain ⟨k, frame, b, hk, hframe, hlookup, hdeclares⟩ :=
      h.complete ((visible_neutral hm).1 hj)
    exact ⟨k, frame, b, hk, hframe, hlookup, hdeclares.append _⟩
  · refine distinct_concat h.distinct ?_
    intro i x _ hx
    rw [declared?_of_isNeutral hm] at hx
    cases hx
  · rw [List.filterMap_append, h.vars, List.filterMap_cons, varDecl?_of_isNeutral hm]
    simp

/-- Neutral marks change nothing. -/
theorem neutrals (h : Reflects s Γ t) {ms : List Mark} (hms : ∀ m ∈ ms, m.isNeutral = true) :
    Reflects s Γ (t ++ ms) := by
  induction ms generalizing t with
  | nil => rwa [List.append_nil]
  | cons m ms ih =>
    have hm := h.neutral (hms m List.mem_cons_self)
    have hrest := ih hm fun m' hm' => hms m' (List.mem_cons_of_mem _ hm')
    rwa [List.append_assoc, List.singleton_append] at hrest

/-- **A block opens.** -/
theorem push (h : Reflects s Γ t) : Reflects s.push Γ (t ++ [.opens]) := by
  have hlevels := Scope.levels_push s
  refine ⟨?_, ?_, ?_, ?_, ?_⟩
  · have hheight := h.height
    rw [hlevels, List.length_append, depth_append, depth_opens, List.length_singleton]
    omega
  · intro d frame x b hd hx
    rw [hlevels, List.getElem?_append] at hd
    split at hd
    · obtain ⟨j, hj⟩ := h.sound hd hx
      exact ⟨j, visible_opens.2 hj⟩
    · -- the new frame has no names
      rw [List.mem_singleton.1 (List.mem_of_getElem? hd)] at hx
      cases hx
  · intro d x j hj
    obtain ⟨k, frame, b, hk, hframe, hlookup, hdeclares⟩ := h.complete (visible_opens.1 hj)
    have hlt := (List.getElem?_eq_some_iff.1 hframe).1
    refine ⟨k, frame, b, hk, ?_, hlookup, hdeclares.append _⟩
    rw [hlevels, List.getElem?_append_left hlt]
    exact hframe
  · refine distinct_concat h.distinct ?_
    intro i x _ hx
    cases hx
  · rw [List.filterMap_append, h.vars]
    simp [Mark.varDecl?]

/-- **A block closes.** -/
theorem pop (h : Reflects s Γ t) (hdepth : 0 < depth t) : Reflects s.pop Γ (t ++ [.closes]) := by
  have hheight := h.height
  obtain ⟨top, hlevels⟩ := Scope.levels_pop (s := s) (by omega)
  have hlen : s.levels.length = s.pop.levels.length + 1 := by
    rw [hlevels, List.length_append, List.length_singleton]
  refine ⟨?_, ?_, ?_, ?_, ?_⟩
  · rw [depth_append, depth_closes]
    omega
  · intro d frame x b hd hx
    have hlt := (List.getElem?_eq_some_iff.1 hd).1
    obtain ⟨j, hj⟩ := h.sound (by rw [hlevels, List.getElem?_append_left hlt]; exact hd) hx
    exact ⟨j, visible_closes.2 ⟨hj, by omega⟩⟩
  · intro d x j hj
    obtain ⟨hj, hd⟩ := visible_closes.1 hj
    obtain ⟨k, frame, b, rfl, hframe, hlookup, hdeclares⟩ := h.complete hj
    refine ⟨k, frame, b, rfl, ?_, hlookup, hdeclares.append _⟩
    rw [hlevels, List.getElem?_append_left (by omega)] at hframe
    exact hframe
  · refine distinct_concat h.distinct ?_
    intro i x _ hx
    cases hx
  · rw [List.filterMap_append, h.vars]
    simp [Mark.varDecl?]

/-- The table may learn more of its functions. -/
theorem mono (h : Reflects s Γ t) (hext : Γ.Extends Γ') (hvars : Γ'.vars = Γ.vars) :
    Reflects s Γ' t := by
  refine ⟨h.height, h.sound, ?_, h.distinct, hvars ▸ h.vars⟩
  intro d x j hj
  obtain ⟨k, frame, b, hk, hframe, hlookup, hdeclares⟩ := h.complete hj
  exact ⟨k, frame, b, hk, hframe, hlookup, hdeclares.mono hext⟩

/-- **A name is declared** that the innermost block did not have. -/
theorem add (h : Reflects s Γ t) {m : Mark} {b : Binding} (hm : m.declared? = some x)
    (hadd : s.add x b = .ok s') (hext : Γ.Extends Γ')
    (hdeclares : Declares Γ' (t ++ [m]) t.length b)
    (hvars : Γ'.vars.rows.toList.map (fun sym => (sym.name, sym.line)) =
      (t ++ [m]).filterMap Mark.varDecl?) :
    Reflects s' Γ' (t ++ [m]) := by
  obtain ⟨ls, frame, hlevels, hlevels', hnone⟩ := Scope.levels_of_add hadd
  have hheight := h.height
  have hlen : s.levels.length = ls.length + 1 := by simp [hlevels]
  have hdepth : depth t = ls.length := by omega
  refine ⟨?_, ?_, ?_, ?_, hvars⟩
  · rw [depth_append, depth_of_declared? hm, hlevels', List.length_append, List.length_singleton]
    omega
  · intro d frame' y b' hd hy
    rw [hlevels', List.getElem?_append] at hd
    split at hd
    · rename_i hlt
      obtain ⟨j, hj⟩ := h.sound (by rw [hlevels, List.getElem?_append_left hlt]; exact hd) hy
      exact ⟨j, (visible_declares hm).2 (.inl hj)⟩
    · rename_i hge
      have hdl : d = ls.length := by
        have hlt := (List.getElem?_eq_some_iff.1 hd).1
        rw [List.length_singleton] at hlt
        omega
      subst hdl
      rw [Nat.sub_self] at hd
      cases hd
      by_cases hyx : y = x
      · subst hyx
        exact ⟨t.length, (visible_declares hm).2 (.inr ⟨rfl, rfl, hdepth.symm⟩)⟩
      · rw [List.lookup_cons, beq_eq_false_iff_ne.2 hyx] at hy
        obtain ⟨j, hj⟩ := h.sound (by rw [hlevels, List.getElem?_concat_length]) hy
        exact ⟨j, (visible_declares hm).2 (.inl hj)⟩
  · intro d y j hj
    rcases (visible_declares hm).1 hj with hj | ⟨rfl, rfl, rfl⟩
    · obtain ⟨k, frame', b', rfl, hframe, hlookup, hdecl⟩ := h.complete hj
      rw [hlevels, List.getElem?_append] at hframe
      split at hframe
      · rename_i hlt
        refine ⟨k, frame', b', rfl, ?_, hlookup, (hdecl.mono hext).append _⟩
        rw [hlevels', List.getElem?_append_left hlt]
        exact hframe
      · rename_i hge
        have hkl : k = ls.length := by
          have hlt := (List.getElem?_eq_some_iff.1 hframe).1
          rw [List.length_singleton] at hlt
          omega
        subst hkl
        rw [Nat.sub_self] at hframe
        cases hframe
        refine ⟨_, (x, b) :: frame, b', rfl, ?_, ?_, (hdecl.mono hext).append _⟩
        · rw [hlevels', List.getElem?_concat_length]
        · exact Scope.lookup_cons_of_lookup hnone hlookup
    · refine ⟨ls.length, (y, b) :: frame, b, hdepth, ?_, List.lookup_cons_self, hdeclares⟩
      rw [hlevels', List.getElem?_concat_length]
  · refine distinct_concat h.distinct ?_
    intro i y hi hy
    -- the innermost block would have had the name
    rw [hm] at hy
    cases hy
    obtain ⟨k, frame', b', hk, hframe, hlookup, _⟩ := h.complete hi
    have hkl : k = ls.length := by omega
    subst hkl
    rw [hlevels, List.getElem?_concat_length] at hframe
    cases hframe
    rw [hnone] at hlookup
    cases hlookup

/-- A variable is declared. -/
theorem withVar (h : Reflects s Γ t) {sym : VarSymbol}
    (hadd : s.add sym.name (.var Γ.nextVar) = .ok s') :
    Reflects s' (Γ.withVar sym) (t ++ [.varDecl sym.name sym.line]) := by
  have hcount : t.countP Mark.isVarDecl = Γ.vars.size := by
    have hlen := congrArg List.length h.vars
    rw [List.length_map, List.length_filterMap_eq_countP] at hlen
    have hp : (fun m => (Mark.varDecl? m).isSome) = Mark.isVarDecl := by
      funext m
      cases m <;> rfl
    rw [hp] at hlen
    exact hlen.symm
  refine h.add rfl hadd (Symbols.extends_withVar _ _) ?_ ?_
  · have hdecl : Declares (Γ.withVar sym) (t ++ [.varDecl sym.name sym.line]) t.length _ :=
      .var List.getElem?_concat_length
    rw [List.take_append_of_le_length (Nat.le_refl _), List.take_length, hcount] at hdecl
    exact hdecl
  · rw [List.filterMap_append, ← h.vars]
    simp [Symbols.withVar, Table.insert, Mark.varDecl?]

/-- A function is declared for the first time. -/
theorem withFunc (h : Reflects s Γ t) {sym : FuncSymbol}
    (hadd : s.add sym.name (.func Γ.nextFunc) = .ok s') :
    Reflects s' (Γ.withFunc sym) (t ++ [.funcDecl sym.name]) := by
  refine h.add rfl hadd (Symbols.extends_withFunc _ _) ?_ ?_
  · exact .func List.getElem?_concat_length (Symbols.func?_withFunc_nextFunc _ _)
  · rw [List.filterMap_append, ← h.vars]
    simp [Symbols.withFunc, Mark.varDecl?]

/-- A function is declared once more, outside all blocks. -/
theorem again (h : Reflects s Γ t) (hinner : s.inner = []) {f : FuncId}
    (hget : s.get? x = some (.func f)) : Reflects s Γ (t ++ [.funcDecl x]) := by
  have hlevels : s.levels = [s.outer] := by simp [Scope.levels, hinner]
  have hdepth : depth t = 0 := by
    have hheight := h.height
    rw [hlevels] at hheight
    simp only [List.length_singleton] at hheight
    omega
  have hlookup : s.outer.lookup x = some (.func f) := by rw [← Scope.get?_of_inner hinner, hget]
  -- an earlier declaration of the name stands for the same function
  have hfunc : ∀ {j : Nat} {d : Int}, Visible t x j d →
      t[j]? = some (.funcDecl x) ∧ ∃ sym, Γ.func? f = some sym ∧ sym.name = x := by
    intro j d hj
    obtain ⟨k, frame, b, rfl, hframe, hb, hdeclares⟩ := h.complete hj
    rw [hlevels] at hframe
    rw [List.mem_singleton.1 (List.mem_of_getElem? hframe), hlookup] at hb
    cases hb
    exact hdeclares.of_func hj.declares
  have hm : (Mark.funcDecl x).declared? = some x := rfl
  have h0 : s.levels[0]? = some s.outer := by rw [hlevels]; rfl
  obtain ⟨j₀, hj₀⟩ := h.sound h0 hlookup
  obtain ⟨_, sym, hf, hname⟩ := hfunc hj₀
  refine ⟨?_, ?_, ?_, ?_, ?_⟩
  · rw [depth_append, depth_of_declared? hm, Int.add_zero]
    exact h.height
  · intro d frame y b hd hy
    obtain ⟨j, hj⟩ := h.sound hd hy
    exact ⟨j, (visible_declares hm).2 (.inl hj)⟩
  · intro d y j hj
    rcases (visible_declares hm).1 hj with hj | ⟨rfl, rfl, rfl⟩
    · obtain ⟨k, frame, b, hk, hframe, hb, hdeclares⟩ := h.complete hj
      exact ⟨k, frame, b, hk, hframe, hb, hdeclares.append _⟩
    · refine ⟨0, s.outer, _, hdepth, h0, hlookup, ?_⟩
      exact .func (by rw [List.getElem?_concat_length, hname]) hf
  · refine distinct_concat h.distinct ?_
    intro i y hi hy
    cases hy
    exact ⟨(hfunc hi).1, rfl⟩
  · rw [List.filterMap_append, ← h.vars]
    simp [Mark.varDecl?]

end Reflects

end MiniC
