/-
  MiniC.Proofs.Relabelling.Outlines

  **The outline of relabelled tokens is the relabelled outline**, and the
  outline of whole items before others is the one outline after the other.

  Statements and items are read as expressions are: names and lines change
  nothing but themselves, and what follows an item that was read to its end is
  left as it is.
-/
import MiniC.Proofs.Relabelling.Runs

namespace MiniC

open Outline

namespace Relabelling

variable (φ : Relabelling) {B : List Token} {last : Nat} {ts : List Token}

/-! ## §1. Statements -/

/-- A condition is read as it was. -/
theorem readCondition_moved (hB : Fresh B) {cond : Run} {rest : Option (Left ts.length)}
    (hread : readCondition last ts = (cond, rest)) (hkept : Kept B rest) :
    ∃ rest', readCondition (φ.line last) (φ.tokens B ts) = (φ.run cond, rest') ∧
      rest'.map (·.1) = (rest.map (·.1)).map (φ.tokens B) := by
  apply eq_of_plain
  unfold readCondition at hread ⊢
  cases hparen : expect last .lparen ts with
  | error f =>
    rw [hparen] at hread
    cases hread
    obtain rfl := hkept.nil
    rw [(expect_follows φ ts).error hparen rfl]
    rfl
  | ok after =>
    rw [hparen] at hread
    obtain ⟨hlt, hparen'⟩ := expect_ok φ (B := B) hparen
    cases hrun : readRun last .paren false after.1 with
    | mk e rest =>
      dsimp only at hread
      rw [hrun] at hread
      cases hread
      obtain ⟨rest', hrun', hrest⟩ := readRun_moved φ hB hrun (kept_map hkept)
      rw [hparen']
      dsimp only
      rw [hrun']
      exact plain_moved (f := φ.run) (left_movedRun hrest)

/-- The semicolon of a jump is read as it was. -/
theorem readJumpEnd_moved {fault : Option Fault} {rest : Option (Left ts.length)}
    (hread : readJumpEnd last ts = (fault, rest)) (hkept : Kept B rest) :
    ∃ rest', readJumpEnd (φ.line last) (φ.tokens B ts) = (fault.map φ.fault, rest') ∧
      rest'.map (·.1) = (rest.map (·.1)).map (φ.tokens B) := by
  apply eq_of_plain
  unfold readJumpEnd at hread ⊢
  cases hsemi : expect last .semicolon ts with
  | error f =>
    rw [hsemi] at hread
    cases hread
    obtain rfl := hkept.nil
    rw [(expect_follows φ ts).error hsemi rfl]
    rfl
  | ok after =>
    rw [hsemi] at hread
    cases hread
    obtain ⟨hlt, hsemi'⟩ := expect_ok φ (B := B) hsemi
    rw [hsemi']
    rfl

/-- What follows the block of a test is seen as it was, unless the text ended
right after the word that opens the other branch. -/
theorem afterTest_moved (hB : Fresh B) (ts : List Token) :
    match afterTest ts with
    | .nothing => afterTest (φ.tokens B ts) = .nothing
    | .test after => ∃ hlt, afterTest (φ.tokens B ts) = .test ⟨φ.tokens B after.1, hlt⟩
    | .block after => (after.1 = [] → B = []) →
        ∃ hlt, afterTest (φ.tokens B ts) = .block ⟨φ.tokens B after.1, hlt⟩ := by
  cases ts with
  | nil =>
    cases B with
    | nil => rfl
    | cons b B => exact afterTest_none (hB _ rfl).2.2.2
  | cons t ts =>
    by_cases ht : t.kind = .keyword .kwElse
    · have ht' : (φ.token t).kind = .keyword .kwElse := congrArg φ.kind ht
      cases ts with
      | nil =>
        rw [afterTest_end ht]
        intro hnil
        obtain rfl := hnil rfl
        exact ⟨_, afterTest_end ht'⟩
      | cons s ts =>
        by_cases hs : s.kind = .keyword .kwIf
        · rw [afterTest_if ht hs]
          exact ⟨_, afterTest_if ht' (congrArg φ.kind hs)⟩
        · have hs' : ¬ (φ.token s).kind = .keyword .kwIf := by rwa [kind_token, kind_eq_keyword]
          rw [afterTest_other ht hs]
          exact fun _ => ⟨_, afterTest_other ht' hs'⟩
    · have ht' : ¬ (φ.token t).kind = .keyword .kwElse := by rwa [kind_token, kind_eq_keyword]
      rw [afterTest_none ht]
      exact afterTest_none ht'

/-- A test and what depends on it, relabelled. -/
def branch (b : Run × List Outline.Stmt × Outline.Else) :
    Run × List Outline.Stmt × Outline.Else :=
  (φ.run b.1, φ.stmts b.2.1, φ.orElse b.2.2)

end Relabelling

namespace Outline

open Relabelling

/-- Reading a block ends where there is no token. -/
theorem BlockRead.rest_nil {last : Nat} {ts : List Token} {body : List Stmt}
    {rest : Option (List Token)} (h : BlockRead last ts body rest) (hts : ts = []) :
    rest = none := by
  subst hts
  cases h with
  | broken hbrace => rfl
  | ok hbrace hrest => cases hbrace

mutual

/-- A statement is read as it was: nothing in it looks beyond its end. -/
theorem StmtRead.moved (φ : Relabelling) {B : List Token} (hB : Fresh B) {last : Nat}
    {ts : List Token} {s : Stmt} {rest : Option (List Token)} :
    StmtRead last ts s rest → Kept B rest →
    StmtRead (φ.line last) (φ.tokens B ts) (φ.stmt s) (rest.map (φ.tokens B))
  | .nil hrun, hkept => by
    obtain rfl := kept_map hkept hrun.rest_nil
    have hnil := StmtRead.nil (hrun.moved φ hB fun _ => rfl)
    rw [Option.map_map] at hnil ⊢
    exact hnil
  | .declare hty hdecl, hkept => by
    obtain ⟨rest', hdecl', hrest⟩ := readDeclaration_ok φ hB hdecl (kept_map hkept)
    rw [← hrest]
    exact .declare (by rwa [kind_token, isType_kind]) hdecl'
  | .badDeclaration hty hdecl, hkept => by
    obtain rfl := hkept.nil
    exact .badDeclaration (by rwa [kind_token, isType_kind])
      ((readDeclaration_follows φ hB _).error hdecl rfl)
  | .ret hk, _ => .ret (congrArg φ.kind hk)
  | .retValue hk hne hrun, hkept => by
    have hne' := tokens_ne φ (B := B) hne fun hts => by
      subst hts
      obtain rfl := kept_map hkept hrun.rest_nil
      exact fun _ hk => absurd hk (Option.not_mem_none _)
    have hvalue := StmtRead.retValue (t := φ.token _) (congrArg φ.kind hk) hne'
      (hrun.moved φ hB (kept_map hkept))
    rw [Option.map_map] at hvalue ⊢
    exact hvalue
  | .branch hk hbranch, hkept => .branch (congrArg φ.kind hk) (hbranch.moved φ hB hkept)
  | .badLoop hk hcond, hkept => by
    obtain rfl := hkept.nil
    obtain ⟨rest', hcond', hrest⟩ := readCondition_moved φ hB hcond fun _ => rfl
    obtain rfl := Option.map_eq_none_iff.1 hrest
    exact .badLoop (congrArg φ.kind hk) hcond'
  | .loop hk hcond hblock, hkept => by
    obtain ⟨left, hcond', hleft⟩ := readCondition_moved φ hB hcond (kept_some _)
    obtain ⟨hlt, rfl⟩ := eq_some_of_map_val hleft
    exact .loop (congrArg φ.kind hk) hcond' (hblock.moved φ hB hkept)
  | .leave hk hend, hkept => by
    obtain ⟨rest', hend', hrest⟩ := readJumpEnd_moved φ hend (kept_map hkept)
    rw [← hrest]
    exact .leave (congrArg φ.kind hk) hend'
  | .again hk hend, hkept => by
    obtain ⟨rest', hend', hrest⟩ := readJumpEnd_moved φ hend (kept_map hkept)
    rw [← hrest]
    exact .again (congrArg φ.kind hk) hend'
  | .expr hty hrun hret hif hwhile hbreak hcontinue, hkept => by
    have hword : ∀ {t : Token} {w : Keyword}, (t.kind = .keyword w → False) →
        (φ.token t).kind = .keyword w → False := fun hne h => hne (φ.kind_eq_keyword.1 h)
    have hexpr := StmtRead.expr (by rwa [← isType_kind φ] at hty)
      (hrun.moved φ hB (kept_map hkept)) (hword hret) (hword hif) (hword hwhile) (hword hbreak)
      (hword hcontinue)
    rw [Option.map_map] at hexpr ⊢
    exact hexpr

/-- A block is read as it was. -/
theorem BlockRead.moved (φ : Relabelling) {B : List Token} (hB : Fresh B) {last : Nat}
    {ts : List Token} {body : List Stmt} {rest : Option (List Token)} :
    BlockRead last ts body rest → Kept B rest →
    BlockRead (φ.line last) (φ.tokens B ts) (φ.stmts body) (rest.map (φ.tokens B))
  | .broken hbrace, hkept => by
    obtain rfl := hkept.nil
    exact .broken ((expect_follows φ ts).error hbrace rfl)
  | .ok hbrace hrest, hkept => by
    obtain ⟨hlt, hbrace'⟩ := expect_ok φ (B := B) hbrace
    exact .ok hbrace' (hrest.moved φ hB hkept)

/-- Statements up to the closing brace are read as they were. -/
theorem BlockRestRead.moved (φ : Relabelling) {B : List Token} (hB : Fresh B) {last : Nat}
    {ts : List Token} {body : List Stmt} {rest : Option (List Token)} :
    BlockRestRead last ts body rest → Kept B rest →
    BlockRestRead (φ.line last) (φ.tokens B ts) (φ.stmts body) (rest.map (φ.tokens B))
  | .nil, hkept => by
    obtain rfl := hkept.nil
    show BlockRestRead _ [] [.broken (φ.fault (.expected _ (front last [])))] none
    rw [← expected_front]
    exact .nil
  | .ends hk, _ => .ends (congrArg φ.kind hk)
  | .broken hk hstmt, hkept =>
    .broken (by rwa [kind_token, kind_eq_punct]) (hstmt.moved φ hB hkept)
  | .more hk hstmt hrest, hkept =>
    .more (by rwa [kind_token, kind_eq_punct]) (hstmt.moved φ hB (kept_some _))
      (hrest.moved φ hB hkept)

/-- A test is read as it was, with its branches. -/
theorem BranchRead.moved (φ : Relabelling) {B : List Token} (hB : Fresh B) {last : Nat}
    {ts : List Token} {b : Run × List Stmt × Else} {rest : Option (List Token)} :
    BranchRead last ts b rest → Kept B rest →
    BranchRead (φ.line last) (φ.tokens B ts) (φ.branch b) (rest.map (φ.tokens B))
  | .badCondition hcond, hkept => by
    obtain rfl := hkept.nil
    obtain ⟨rest', hcond', hrest⟩ := readCondition_moved φ hB hcond fun _ => rfl
    obtain rfl := Option.map_eq_none_iff.1 hrest
    exact .badCondition hcond'
  | .badBlock hcond hblock, hkept => by
    obtain ⟨left, hcond', hleft⟩ := readCondition_moved φ hB hcond (kept_some _)
    obtain ⟨hlt, rfl⟩ := eq_some_of_map_val hleft
    exact .badBlock hcond' (hblock.moved φ hB hkept)
  | .ok hcond hblock helse, hkept => by
    obtain ⟨left, hcond', hleft⟩ := readCondition_moved φ hB hcond (kept_some _)
    obtain ⟨hlt, rfl⟩ := eq_some_of_map_val hleft
    exact .ok hcond' (hblock.moved φ hB (kept_some _)) (helse.moved φ hB hkept)

/-- The other branch is read as it was, if not cut off after its word. -/
theorem ElseRead.moved (φ : Relabelling) {B : List Token} (hB : Fresh B) {last : Nat}
    {ts : List Token} {e : Else} {rest : Option (List Token)} :
    ElseRead last ts e rest → Kept B rest →
    ElseRead (φ.line last) (φ.tokens B ts) (φ.orElse e) (rest.map (φ.tokens B))
  | .nothing hafter, _ => by
    have hafter' := afterTest_moved φ hB ts
    rw [hafter] at hafter'
    exact .nothing hafter'
  | .test hafter hbranch, hkept => by
    have hafter' := afterTest_moved φ hB ts
    rw [hafter] at hafter'
    obtain ⟨hlt, hafter'⟩ := hafter'
    exact .test hafter' (hbranch.moved φ hB hkept)
  | .block hafter hblock, hkept => by
    have hafter' := afterTest_moved φ hB ts
    rw [hafter] at hafter'
    -- if the text ended after the word, the block is broken, and nothing follows
    obtain ⟨hlt, hafter'⟩ := hafter' fun hnil => hkept (hblock.rest_nil hnil)
    exact .block hafter' (hblock.moved φ hB hkept)

end

end Outline

namespace Relabelling

variable (φ : Relabelling) {B : List Token} {last : Nat} {ts : List Token}
variable {rest : Option (Left ts.length)}

/-! ## §2. Heads of functions -/

/-- The sign after a parameter is read on both sides. -/
theorem readParamEnd_follows (ts : List Token) :
    φ.Follows (B = []) (fun r r' => r'.1 = r.1 ∧ r'.2.1 = φ.tokens B r.2.1)
      (readParamEnd last ts) (readParamEnd (φ.line last) (φ.tokens B ts)) := by
  cases ts with
  | nil =>
    refine .fail fun hB => ?_
    subst hB
    exact congrArg Except.error (expected_front _ last)
  | cons t ts =>
    rw [tokens_cons]
    unfold readParamEnd
    simp only [kind_token, kind_eq_punct]
    split
    · exact .pure ⟨rfl, rfl⟩
    · split
      · exact .pure ⟨rfl, rfl⟩
      · rw [expected_token]
        exact .throw _

/-- The sign after a parameter was read: it is read again. -/
theorem readParamEnd_ok {e : ParamEnd} {rest : Left ts.length}
    (h : readParamEnd last ts = .ok (e, rest)) :
    ∃ hlt, readParamEnd (φ.line last) (φ.tokens B ts) = .ok (e, ⟨φ.tokens B rest.1, hlt⟩) := by
  obtain ⟨⟨_, rest', hlt⟩, h', he, hrest⟩ := (readParamEnd_follows φ (B := B) ts).ok h
  obtain rfl : rest' = φ.tokens B rest.1 := hrest
  subst he
  exact ⟨hlt, h'⟩

/-- What is said of parameters and of what is left after them. -/
structure ParamsMoved (B : List Token) {n n' : Nat} (r : List Param × Except Fault (Left n))
    (r' : List Param × Except Fault (Left n')) : Prop where
  params : (B ≠ [] → ∃ rest, r.2 = .ok rest) → r'.1 = r.1.map φ.param
  rest : φ.Follows (B = []) (fun l l' => l'.1 = φ.tokens B l.1) r.2 r'.2

/-- Reading ended among the parameters. -/
theorem ParamsMoved.ended {n n' : Nat} {ps : List Param} {f : Fault}
    {r' : List Param × Except Fault (Left n')}
    (h : B = [] → r' = (ps.map φ.param, .error (φ.fault f))) :
    φ.ParamsMoved B (n := n) (ps, .error f) r' := by
  constructor
  · intro hne
    by_cases hB : B = []
    · rw [h hB]
    · obtain ⟨_, hok⟩ := hne hB
      cases hok
  · exact .fail fun hB => by rw [h hB]

/-- Parameters are read as they were. -/
theorem readParams_moved (hB : Fresh B) (last : Nat) (ts : List Token) :
    φ.ParamsMoved B (readParams last ts) (readParams (φ.line last) (φ.tokens B ts)) := by
  induction ts using readParams.induct last with
  | case1 ts f hty =>
    rw [readParams_badTy hty]
    exact .ended φ fun hnil => readParams_badTy ((readTy_follows φ hB ts).error hty hnil)
  | case2 ts ty afterTy hty f hname =>
    obtain ⟨_, hty'⟩ := readTy_ok φ hB hty
    rw [readParams_badName hty hname]
    exact .ended φ fun hnil =>
      readParams_badName hty' ((readName_follows φ afterTy.1).error hname hnil)
  | case3 ts ty afterTy hty x line afterName hname f hend =>
    obtain ⟨_, hty'⟩ := readTy_ok φ hB hty
    obtain ⟨_, hname'⟩ := readName_ok φ (B := B) hname
    rw [readParams_badEnd hty hname hend]
    exact .ended φ fun hnil =>
      readParams_badEnd hty' hname' ((readParamEnd_follows φ afterName.1).error hend hnil)
  | case4 ts ty afterTy hty x line afterName hname rest hend params result hmore ih =>
    obtain ⟨_, hty'⟩ := readTy_ok φ hB hty
    obtain ⟨_, hname'⟩ := readName_ok φ (B := B) hname
    obtain ⟨_, hend'⟩ := readParamEnd_ok φ (B := B) hend
    rw [hmore] at ih
    cases hmore' : readParams (φ.line last) (φ.tokens B rest.1) with
    | mk params' result' =>
      rw [hmore'] at ih
      rw [readParams_comma hty hname hend hmore, readParams_comma hty' hname' hend' hmore']
      cases result with
      | error f =>
        refine .ended φ fun hnil => ?_
        have hparams : params' = _ := ih.params fun hne => absurd hnil hne
        have hresult : result' = _ := ih.rest.error rfl hnil
        rw [hparams, hresult]
        rfl
      | ok after =>
        obtain ⟨after', hresult, hafter⟩ := ih.rest.ok rfl
        have hparams : params' = _ := ih.params fun _ => ⟨after, rfl⟩
        obtain rfl : result' = _ := hresult
        rw [hparams]
        exact ⟨fun _ => rfl, .pure hafter⟩
  | case5 ts ty afterTy hty x line afterName hname rest hend =>
    obtain ⟨_, hty'⟩ := readTy_ok φ hB hty
    obtain ⟨_, hname'⟩ := readName_ok φ (B := B) hname
    obtain ⟨_, hend'⟩ := readParamEnd_ok φ (B := B) hend
    rw [readParams_paren hty hname hend, readParams_paren hty' hname' hend']
    exact ⟨fun _ => rfl, .pure rfl⟩

/-- A list of parameters is read as it was. -/
theorem readParamList_moved (hB : Fresh B) (ts : List Token) :
    φ.ParamsMoved B (readParamList last ts) (readParamList (φ.line last) (φ.tokens B ts)) := by
  by_cases hparen : ∃ line rest, ts = ⟨.punct .rparen, line⟩ :: rest
  · obtain ⟨line, rest, rfl⟩ := hparen
    exact ⟨fun _ => rfl, .pure rfl⟩
  · have hne : ∀ line rest, ts = ⟨.punct .rparen, line⟩ :: rest → False :=
      fun line rest hts => hparen ⟨line, rest, hts⟩
    have hmoved := readParams_moved φ hB last ts
    rw [readParamList_params hne]
    by_cases hts : ts = [] ∧ B ≠ []
    · obtain ⟨rfl, hnil⟩ := hts
      rw [readParams_badTy rfl]
      exact .ended φ fun h => absurd h hnil
    · have hne' := tokens_ne φ (B := B) hne fun h => by
        have hnil : B = [] := not_not.1 fun hnil => hts ⟨h, hnil⟩
        rw [hnil]
        exact nofun
      rw [readParamList_params hne']
      exact hmoved

/-- What is said of the head of a function and of what is left. -/
def SignatureMoved (B : List Token) {n n' : Nat} (r : Signature × Option (Left n))
    (r' : Signature × Option (Left n')) : Prop :=
  Kept B r.2 → plain r' = φ.moved B φ.signature (plain r)

/-- The head of a function is read on both sides. -/
theorem readSignature_follows (hB : Fresh B) (ts : List Token) :
    φ.Follows (B = []) (φ.SignatureMoved B) (readSignature last ts)
      (readSignature (φ.line last) (φ.tokens B ts)) := by
  refine (readTy_follows φ hB ts).bind ?_
  rintro ⟨ret, afterTy⟩ ⟨_, afterTy', hlt⟩ ⟨hret, hafterTy⟩
  obtain rfl : afterTy' = φ.tokens B afterTy.1 := hafterTy
  subst hret
  refine (readName_follows φ afterTy.1).bind ?_
  rintro ⟨⟨x, line⟩, afterName⟩ ⟨_, afterName', hlt'⟩ ⟨hname, hafterName⟩
  obtain rfl : afterName' = φ.tokens B afterName.1 := hafterName
  subst hname
  refine (expect_follows φ afterName.1).bind ?_
  rintro afterParen ⟨afterParen', hlt''⟩ hafterParen
  obtain rfl : afterParen' = φ.tokens B afterParen.1 := hafterParen
  have hlist : φ.ParamsMoved B (readParamList last _) _ := readParamList_moved φ hB afterParen.1
  dsimp only
  cases hread : readParamList last afterParen.1 with
  | mk params result =>
    cases hread' : readParamList (φ.line last) (φ.tokens B afterParen.1) with
    | mk params' result' =>
      rw [hread, hread'] at hlist
      cases result with
      | error f =>
        by_cases hnil : B = []
        · obtain rfl : params' = _ := hlist.params fun hne => absurd hnil hne
          obtain rfl : result' = _ := hlist.rest.error rfl hnil
          exact .pure fun _ => rfl
        · -- reading ended, and more tokens follow: nothing is said
          cases result' with
          | error f' => exact .pure fun hkept => absurd hkept.nil hnil
          | ok after => exact .pure fun hkept => absurd hkept.nil hnil
      | ok after =>
        obtain ⟨after', hresult, hafter⟩ := hlist.rest.ok rfl
        obtain rfl : params' = _ := hlist.params fun _ => ⟨after, rfl⟩
        obtain rfl : result' = _ := hresult
        exact .pure fun _ => congrArg (fun l => (_, some l)) hafter

/-- A head was read: it is read again, before the same rest. -/
theorem readSignature_ok (hB : Fresh B) {sig : Signature}
    (h : readSignature last ts = .ok (sig, rest)) (hkept : Kept B rest) :
    ∃ rest', readSignature (φ.line last) (φ.tokens B ts) = .ok (φ.signature sig, rest') ∧
      rest'.map (·.1) = (rest.map (·.1)).map (φ.tokens B) := by
  obtain ⟨⟨sig', rest'⟩, h', hmoved⟩ := (readSignature_follows φ hB ts).ok h
  obtain ⟨hsig, hrest⟩ := Prod.mk.inj (hmoved hkept)
  obtain rfl : sig' = φ.signature sig := hsig
  exact ⟨rest', h', hrest⟩

/-! ## §3. Items -/

/-- The end of an import is read as it was. -/
theorem readImportEnd_moved {fault : Option Fault} (hread : readImportEnd last ts = (fault, rest))
    (hkept : Kept B rest) :
    ∃ rest', readImportEnd (φ.line last) (φ.tokens B ts) = (fault.map φ.fault, rest') ∧
      rest'.map (·.1) = (rest.map (·.1)).map (φ.tokens B) := by
  by_cases hbrace : ∃ line rest, ts = ⟨.punct .lbrace, line⟩ :: rest
  · obtain ⟨line, after, rfl⟩ := hbrace
    cases hread
    exact ⟨none, rfl, rfl⟩
  · have hne : ∀ line rest, ts = ⟨.punct .lbrace, line⟩ :: rest → False :=
      fun line rest hts => hbrace ⟨line, rest, hts⟩
    rw [readImportEnd_jump hne] at hread
    have hne' := tokens_ne φ (B := B) hne fun hts => by
      subst hts
      cases hread
      obtain rfl := hkept.nil
      exact nofun
    rw [readImportEnd_jump hne']
    exact readJumpEnd_moved φ hread hkept

/-- The body of a function is read as it was. -/
theorem readBody_moved (hB : Fresh B) {body : Body} (hread : readBody last ts = (body, rest))
    (hkept : Kept B rest) :
    ∃ rest', readBody (φ.line last) (φ.tokens B ts) = (φ.body body, rest') ∧
      rest'.map (·.1) = (rest.map (·.1)).map (φ.tokens B) := by
  cases ts with
  | nil =>
    cases hread
    obtain rfl := hkept.nil
    rw [tokens_nil, readBody, expected_front]
    exact ⟨none, rfl, rfl⟩
  | cons t after =>
    rw [tokens_cons]
    by_cases hsemi : t.kind = .punct .semicolon
    · rw [readBody_none hsemi] at hread
      cases hread
      exact ⟨_, readBody_none (congrArg φ.kind hsemi), rfl⟩
    · have hsemi' : ¬ (φ.token t).kind = .punct .semicolon := by rwa [kind_token, kind_eq_punct]
      by_cases hbrace : t.kind = .punct .lbrace
      · rw [readBody_block hbrace rfl] at hread
        cases hread
        have hblock := (statements_read last).2.2.1 after
        obtain ⟨rest', hread', hrest⟩ :=
          eq_of_plain (hblock.moved φ hB (kept_map hkept).map).eq
        rw [readBody_block (congrArg φ.kind hbrace) hread']
        exact eq_of_plain (plain_moved hrest)
      · have hbrace' : ¬ (φ.token t).kind = .punct .lbrace := by rwa [kind_token, kind_eq_punct]
        rw [readBody_broken hsemi hbrace] at hread
        cases hread
        rw [readBody_broken hsemi' hbrace', expected_token]
        exact ⟨none, rfl, rfl⟩

theorem skipStars_tokens (hB : Fresh B) (ts : List Token) :
    skipStars (φ.tokens B ts) = φ.tokens B (skipStars ts) := by
  rw [skipStars_eq .void, skipStars_eq .void, (readStars_relabelled φ hB .void ts).2]

/-- A name and a parenthesis are seen as before. -/
theorem startsCall_tokens (hB : Fresh B) (hne : ts = [] → B = []) :
    startsCall (φ.tokens B ts) = startsCall ts := by
  cases ts with
  | nil =>
    obtain rfl := hne rfl
    rfl
  | cons t ts =>
    obtain ⟨k, line⟩ := t
    cases k with
    | identifier x =>
      cases ts with
      | nil =>
        -- a name at the end: what follows is no parenthesis
        cases B with
        | nil => rfl
        | cons b B =>
          obtain ⟨k, line⟩ := b
          have hparen : k ≠ .punct .lparen := (hB k rfl).1
          unfold startsCall
          split
          · rename_i h
            cases h
            exact absurd rfl hparen
          · rfl
      | cons s ts =>
        obtain ⟨k, line⟩ := s
        cases k with
        | punct p => cases p <;> rfl
        | _ => rfl
    | _ => rfl

/-- A type and its stars alone are no declaration. -/
theorem readDeclaration_of_skipStars (last : Nat) (t : Token) (h : skipStars ts = []) :
    ∃ f, readDeclaration last (t :: ts) = .error f := by
  cases hbase : baseTy? t.kind with
  | none =>
    have hty : readTy last (t :: ts) = .error (.expected .aType t) := by rw [readTy, hbase]
    rw [readDeclaration, hty]
    exact ⟨_, rfl⟩
  | some base =>
    have hread : (readStars base ts).2.1 = [] := by rw [← skipStars_eq, h]
    rcases hstars : readStars base ts with ⟨ty, rest, hle⟩
    rw [hstars] at hread
    obtain rfl : rest = [] := hread
    have hty : readTy last (t :: ts) = .ok (ty, ⟨[], Nat.lt_succ_of_le hle⟩) := by
      rw [readTy, hbase]
      dsimp only
      rw [hstars]
      rfl
    rw [readDeclaration, hty]
    exact ⟨_, rfl⟩

theorem startsFunction_tokens (hB : Fresh B) {t : Token} (hne : skipStars ts = [] → B = []) :
    startsFunction (φ.token t :: φ.tokens B ts) = startsFunction (t :: ts) := by
  unfold startsFunction
  rw [List.tail_cons, List.tail_cons, skipStars_tokens φ hB, startsCall_tokens φ hB hne]
  exact congrArg (· && _) (φ.isType_kind t.kind)

end Relabelling

namespace Outline

open Relabelling

variable {B : List Token} {last : Nat} {ts : List Token}

/-- An item is read as it was, whatever item follows it. -/
theorem ItemRead.moved (φ : Relabelling) (hB : Fresh B) {t : Token} {i : Item}
    {rest : Option (List Token)} (h : ItemRead last t ts i rest) (hkept : Kept B rest) :
    ItemRead (φ.line last) (φ.token t) (φ.tokens B ts) (φ.item i) (rest.map (φ.tokens B)) := by
  have hword : (φ.token t).kind = .keyword .kwExtern ↔ t.kind = .keyword .kwExtern := by
    rw [kind_token, kind_eq_keyword]
  have hfunction (hstarts : startsFunction (t :: ts) = true) :
      startsFunction (φ.token t :: φ.tokens B ts) = true := by
    rw [startsFunction_tokens φ hB, hstarts]
    intro hnil
    unfold startsFunction at hstarts
    rw [List.tail_cons, hnil, Bool.and_eq_true] at hstarts
    cases hstarts.2
  cases h with
  | badImport hk hsig =>
    obtain rfl := hkept.nil
    exact .badImport (hword.2 hk) ((readSignature_follows φ hB ts).error hsig rfl)
  | importHead hk hsig =>
    obtain ⟨rest', hsig', hrest⟩ := readSignature_ok φ hB hsig fun _ => hkept.nil
    obtain rfl := Option.map_eq_none_iff.1 hrest
    exact .importHead (hword.2 hk) hsig'
  | imported hk hsig hend =>
    obtain ⟨after, hsig', hafter⟩ := readSignature_ok φ hB hsig (kept_some _)
    obtain ⟨hlt, rfl⟩ := eq_some_of_map_val hafter
    obtain ⟨rest', hend', hrest⟩ := readImportEnd_moved φ hend (kept_map hkept)
    rw [← hrest]
    exact .imported (hword.2 hk) hsig' hend'
  | badFunction hk hstarts hsig =>
    obtain rfl := hkept.nil
    exact .badFunction (mt hword.1 hk) (hfunction hstarts)
      ((readSignature_follows φ hB (t :: ts)).error hsig rfl)
  | functionHead hk hstarts hsig =>
    obtain ⟨rest', hsig', hrest⟩ := readSignature_ok φ hB hsig fun _ => hkept.nil
    obtain rfl := Option.map_eq_none_iff.1 hrest
    exact .functionHead (mt hword.1 hk) (hfunction hstarts) hsig'
  | function hk hstarts hsig hbody =>
    obtain ⟨after, hsig', hafter⟩ := readSignature_ok φ hB hsig (kept_some _)
    obtain ⟨hlt, rfl⟩ := eq_some_of_map_val hafter
    obtain ⟨rest', hbody', hrest⟩ := readBody_moved φ hB hbody (kept_map hkept)
    rw [← hrest]
    exact .function (mt hword.1 hk) (hfunction hstarts) hsig' hbody'
  | badGlobal hk hstarts hty hdecl =>
    obtain rfl := hkept.nil
    exact .badGlobal (mt hword.1 hk) (by rwa [startsFunction_tokens φ hB fun _ => rfl])
      (by rwa [kind_token, isType_kind])
      ((readDeclaration_follows φ hB (t :: ts)).error hdecl rfl)
  | global hk hstarts hty hdecl =>
    -- a name was read, so the text does not end right after the type
    have hne : skipStars ts = [] → B = [] := by
      intro hnil
      obtain ⟨f, hfault⟩ := readDeclaration_of_skipStars last t hnil
      rw [hfault] at hdecl
      cases hdecl
    obtain ⟨rest', hdecl', hrest⟩ := readDeclaration_ok φ hB hdecl (kept_map hkept)
    rw [← hrest]
    exact .global (mt hword.1 hk) (by rwa [startsFunction_tokens φ hB hne])
      (by rwa [kind_token, isType_kind]) hdecl'
  | other hk hstarts hty =>
    obtain rfl := hkept.nil
    show ItemRead _ _ _ (.broken (φ.fault (.notDeclaration t))) none
    rw [← notDeclaration_token]
    exact .other (mt hword.1 hk) (by rwa [startsFunction_tokens φ hB fun _ => rfl])
      (by rwa [kind_token, isType_kind])

/-- Items are read as they were, and then those that follow. -/
theorem ItemsRead.moved (φ : Relabelling) (hB : Fresh B) {is js : List Item}
    (h : ItemsRead last ts is) (hkept : B ≠ [] → ∀ i ∈ is, i.whole = true)
    (hjs : ItemsRead (φ.line last) B js) :
    ItemsRead (φ.line last) (φ.tokens B ts) (is.map φ.item ++ js) := by
  induction h with
  | nil => exact hjs
  | broken hitem =>
    -- an item in which reading ended is not whole, so nothing follows
    obtain rfl : B = [] := by
      by_contra hne
      have hwhole := List.forall_mem_singleton.1 (hkept hne)
      rw [hitem.took.1] at hwhole
      cases hwhole
    cases hjs
    exact .broken (hitem.moved φ hB fun _ => rfl)
  | more hitem _ ih =>
    exact .more (hitem.moved φ hB (kept_some _))
      (ih fun hne => (List.forall_mem_cons.1 (hkept hne)).2)

end Outline

namespace Relabelling

variable (φ : Relabelling) {B : List Token} {last : Nat} {ts : List Token}

/-- **The outline of relabelled tokens before others** is the relabelled
outline before theirs, if all items are whole or no others follow. -/
theorem readItems_moved (hB : Fresh B) (last : Nat) (ts : List Token)
    (hkept : B ≠ [] → ∀ i ∈ readItems last ts, i.whole = true) :
    readItems (φ.line last) (φ.tokens B ts) =
      (readItems last ts).map φ.item ++ readItems (φ.line last) B :=
  ((readItems_read last ts).moved φ hB hkept (readItems_read _ B)).eq

/-- Whole items may follow others. -/
theorem fresh_of_whole (h : ∀ i ∈ readItems last ts, i.whole = true) : Fresh ts := by
  intro k hk
  cases ts with
  | nil => cases hk
  | cons t ts =>
    cases hk
    have hopens : t.kind = .keyword .kwExtern ∨ t.kind.isType = true := by
      by_contra hnot
      obtain ⟨hhost, hty⟩ := not_or.1 hnot
      have hstarts : startsFunction (t :: ts) = false := by
        show (t.kind.isType && _) = false
        rw [Bool.eq_false_iff.2 hty]
        rfl
      rw [(ItemsRead.broken (.other hhost (Bool.eq_false_iff.1 hstarts) hty)).eq] at h
      cases List.forall_mem_singleton.1 h
    have hne {k : Kind} (hhost : k ≠ .keyword .kwExtern) (hty : k.isType = false) :
        t.kind ≠ k := by
      rintro rfl
      rcases hopens with h | h
      · exact hhost h
      · rw [hty] at h
        cases h
    exact ⟨hne nofun rfl, hne nofun rfl, hne nofun rfl, hne nofun rfl⟩

/-- **Reading commutes with relabelling.** -/
theorem ofTokens_relabelled (ts : Scan.Tokens) :
    Outline.ofTokens ⟨ts.list.map φ.token, φ.line ts.endLine⟩ =
      (Outline.ofTokens ts).map φ.item := by
  have hmoved := readItems_moved φ fresh_nil ts.endLine ts.list fun h => absurd rfl h
  rw [ItemsRead.nil.eq, List.append_nil, tokens, List.append_nil] at hmoved
  exact hmoved

end Relabelling

end MiniC
