/-
  MiniC.Proofs.Reading.Equations

  What the reading functions give, case by case.

  Reading an outline recurs on the number of tokens that are left, so its
  functions do not unfold by computation.  For those that read declarations,
  parameters and bodies each case has its equation here; the proofs by
  induction on what is read use these and never open the functions.
-/
import MiniC.Outline.Items

namespace MiniC.Outline

variable {last : Nat} {t : Token} {ts after : List Token} {line : Nat}
variable {e : Run}

/-! ## §1. Declarations -/

theorem readLengths_broken (hrun : readRun last .bracket false after = (e, none)) :
    readLengths last (⟨.punct .lbracket, line⟩ :: after) = ([e], none) := by
  rw [readLengths, hrun]

/-- A length between brackets, and more after it. -/
theorem readLengths_more {s : Token} {rest : Left after.length} {es : List Run}
    {rest' : Option (Rest rest.1.length)}
    (hrun : readRun last .bracket false after = (e, some (s, rest)))
    (hmore : readLengths last rest.1 = (es, rest')) :
    readLengths last (⟨.punct .lbracket, line⟩ :: after) =
      (e :: es, rest'.map fun r => (rest.past r).succ.toRest) := by
  rw [readLengths, hrun]
  dsimp only
  rw [hmore]

theorem readLengths_none (hne : ∀ line after, ts = ⟨.punct .lbracket, line⟩ :: after → False) :
    readLengths last ts = ([], some (.all ts)) := by
  rw [readLengths]
  exact hne

theorem readInitial_value {rest : Option (Token × Left after.length)}
    (hrun : readRun last .semicolon false after = (e, rest)) :
    readInitial last (⟨.punct .eq, line⟩ :: after) = (.value e, rest.map (·.2.succ)) := by
  rw [readInitial, hrun]

section

variable (hne : ∀ line after, ts = ⟨.punct .eq, line⟩ :: after → False)
include hne

theorem readInitial_none {rest : Left ts.length} (hsemi : expect last .semicolon ts = .ok rest) :
    readInitial last ts = (.none, some rest) := by
  rw [readInitial, hsemi]
  exact hne

theorem readInitial_broken {f : Fault} (hsemi : expect last .semicolon ts = .error f) :
    readInitial last ts = (.broken f, none) := by
  rw [readInitial, hsemi]
  exact hne

end

/-! ## §2. After a test -/

theorem afterTest_none (ht : ¬ t.kind = .keyword .kwElse) : afterTest (t :: ts) = .nothing :=
  if_neg ht

section

variable (ht : t.kind = .keyword .kwElse)
include ht

theorem afterTest_end : afterTest [t] = .block (.tail []) := if_pos ht

variable {s : Token}

theorem afterTest_if (hs : s.kind = .keyword .kwIf) :
    afterTest (t :: s :: after) = .test (Left.tail after).succ := by
  rw [afterTest, if_pos ht, if_pos hs]

theorem afterTest_other (hs : ¬ s.kind = .keyword .kwIf) :
    afterTest (t :: s :: after) = .block (.tail (s :: after)) := by
  rw [afterTest, if_pos ht, if_neg hs]

end

/-! ## §3. Parameters -/

theorem readParams_badTy {f : Fault} (hty : readTy last ts = .error f) :
    readParams last ts = ([], .error f) := by
  rw [readParams, hty]

section

variable {ty : Ty} {afterTy : Left ts.length} (hty : readTy last ts = .ok (ty, afterTy))
include hty

theorem readParams_badName {f : Fault} (hname : readName last afterTy.1 = .error f) :
    readParams last ts = ([], .error f) := by
  rw [readParams, hty]
  dsimp only
  rw [hname]

variable {x : String} {afterName : Left afterTy.1.length}
  (hname : readName last afterTy.1 = .ok ((x, line), afterName))
include hname

/-- A parameter with neither comma nor parenthesis after it. -/
theorem readParams_badEnd {f : Fault} (hend : readParamEnd last afterName.1 = .error f) :
    readParams last ts = ([⟨ty, x, line⟩], .error f) := by
  rw [readParams, hty]
  dsimp only
  rw [hname]
  dsimp only
  rw [hend]

/-- A parameter before others. -/
theorem readParams_comma {rest : Left afterName.1.length} {params : List Param}
    {result : Except Fault (Left rest.1.length)}
    (hend : readParamEnd last afterName.1 = .ok (.comma, rest))
    (hmore : readParams last rest.1 = (params, result)) :
    readParams last ts = (⟨ty, x, line⟩ :: params,
      result.map fun r => afterTy.within (afterName.within (rest.within r))) := by
  rw [readParams, hty]
  dsimp only
  rw [hname]
  dsimp only
  rw [hend]
  dsimp only
  rw [hmore]

/-- The last parameter. -/
theorem readParams_paren {rest : Left afterName.1.length}
    (hend : readParamEnd last afterName.1 = .ok (.paren, rest)) :
    readParams last ts = ([⟨ty, x, line⟩], .ok (afterTy.within (afterName.within rest))) := by
  rw [readParams, hty]
  dsimp only
  rw [hname]
  dsimp only
  rw [hend]

end

theorem readParamList_params
    (hne : ∀ line rest, ts = ⟨.punct .rparen, line⟩ :: rest → False) :
    readParamList last ts = readParams last ts := by
  rw [readParamList]
  exact hne

/-! ## §4. Parts of items -/

/-- Stars are skipped as they are read. -/
theorem skipStars_eq (ty : Ty) (ts : List Token) : skipStars ts = (readStars ty ts).2.1 := by
  induction ts generalizing ty with
  | nil => rfl
  | cons t ts ih =>
    rw [skipStars, readStars]
    split
    · exact ih (.pointer ty)
    · rfl

theorem readImportEnd_jump (hne : ∀ line rest, ts = ⟨.punct .lbrace, line⟩ :: rest → False) :
    readImportEnd last ts = readJumpEnd last ts := by
  rw [readImportEnd]
  exact hne

theorem readBody_none (hk : t.kind = .punct .semicolon) :
    readBody last (t :: after) = (.none, some (.tail after)) := by
  rw [readBody, if_pos hk]

theorem readBody_block {body : List Stmt} {rest : Option (Left after.length)}
    (hk : t.kind = .punct .lbrace) (hread : readBlockRest last after = (body, rest)) :
    readBody last (t :: after) = (.block body, rest.map (·.succ)) := by
  have hsemi : ¬ t.kind = .punct .semicolon := by rw [hk]; decide
  rw [readBody, if_neg hsemi, if_pos hk, hread]

theorem readBody_broken (hsemi : ¬ t.kind = .punct .semicolon)
    (hbrace : ¬ t.kind = .punct .lbrace) :
    readBody last (t :: after) =
      (.broken (.expected (.either .semicolon .lbrace) t), none) := by
  rw [readBody, if_neg hsemi, if_neg hbrace]

end MiniC.Outline
