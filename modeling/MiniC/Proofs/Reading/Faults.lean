/-
  MiniC.Proofs.Reading.Faults

  **Reading stops at the first token it cannot take.**

  Reading takes tokens from the front, and none of those it takes is invalid
  (`Reached`).  So the fault it leaves in an outline is about the first token
  that it does not take, and if there are invalid tokens, it is about one no
  later than the first of these (`met`).  The proof follows the recursion of
  the reading functions.
-/
import MiniC.Proofs.Checking.Complaints
import MiniC.Proofs.Reading.Words
import MiniC.Proofs.Scanning.Lines

namespace MiniC

open Precedence (shapeFaults)

/-! ## §1. Faults about a token -/

/-- The fault is about the token: it is reported on its line, and as malformed
text only if it is an invalid token. -/
structure Fault.About (t : Token) (f : Fault) : Prop where
  line : f.line = t.line
  lexical : f.cause.category = .lexical → ∃ m, t.kind = .invalid m ∧ f.cause = .malformed m

namespace Fault

theorem about_expected (wanted : Wanted) (t : Token) : (expected wanted t).About t := by
  unfold expected
  split
  · exact ⟨rfl, fun _ => ⟨_, ‹_›, rfl⟩⟩
  · exact ⟨rfl, nofun⟩

theorem about_unexpected (t : Token) : (unexpected t).About t := by
  unfold unexpected
  split
  · exact ⟨rfl, fun _ => ⟨_, ‹_›, rfl⟩⟩
  · exact ⟨rfl, nofun⟩

theorem about_notDeclaration (t : Token) : (notDeclaration t).About t := by
  unfold notDeclaration
  split
  · exact ⟨rfl, fun _ => ⟨_, ‹_›, rfl⟩⟩
  · exact ⟨rfl, nofun⟩

end Fault

namespace Outline

variable {k : Kind}

/-- `ts` is what is left of `all` after valid tokens. -/
def Reached (all ts : List Token) : Prop :=
  ∃ taken, taken ++ ts = all ∧ ∀ t ∈ taken, t.kind.isValid = true

/-- The faults that reading `all` can meet: about the first token that is not
taken, or about the shape of an expression. -/
def met (last : Nat) (all : List Token) : Set Fault :=
  {f | f ∈ shapeFaults ∨ ∃ ts, Reached all ts ∧ f.About (front last ts)}

variable {last : Nat} {all ts : List Token}

theorem Reached.refl (all : List Token) : Reached all all := ⟨[], rfl, nofun⟩

/-- A valid token is taken. -/
theorem Reached.take {t : Token} (h : Reached all (t :: ts)) (hk : t.kind = k)
    (hvalid : k.isValid = true) : Reached all ts := by
  obtain ⟨taken, htaken, hall⟩ := h
  refine ⟨taken ++ [t], by rw [← htaken, List.append_assoc]; rfl, ?_⟩
  intro s hs
  rcases List.mem_append.1 hs with hs | hs
  · exact hall s hs
  · rw [List.mem_singleton.1 hs, hk]
    exact hvalid

/-- A fault about the token that comes next. -/
theorem Reached.met {f : Fault} (h : Reached all ts) (hf : f.About (front last ts)) :
    f ∈ met last all :=
  .inr ⟨ts, h, hf⟩

theorem shapeFaults_subset_met : shapeFaults ⊆ met last all := fun _ => .inl

/-! ## §2. Single steps -/

/-- A step gives what is said of it, or fails with a fault that reading can
meet. -/
def Stepped (last : Nat) (all : List Token) {α : Type} (P : α → Prop) : Except Fault α → Prop
  | .ok a => P a
  | .error f => f ∈ met last all

namespace Stepped

variable {α β : Type} {P : α → Prop} {Q : β → Prop} {x : Except Fault α}

theorem ok {a : α} (h : Stepped last all P x) (hx : x = .ok a) : P a := by
  rw [hx] at h
  exact h

theorem met {f : Fault} (h : Stepped last all P x) (hx : x = .error f) : f ∈ met last all := by
  rw [hx] at h
  exact h

/-- One step after another. -/
theorem bind {k : α → Except Fault β} (h : Stepped last all P x)
    (hk : ∀ a, P a → Stepped last all Q (k a)) : Stepped last all Q (x >>= k) := by
  cases x with
  | error f => exact h
  | ok a => exact hk a h

end Stepped

/-- A missing sign is reported at the token in its place. -/
theorem expect_stepped {p : Punct} (h : Reached all ts) :
    Stepped last all (fun rest => Reached all rest.1) (expect last p ts) := by
  unfold expect
  split
  · exact h.met (Fault.about_expected _ _)
  · split
    · rename_i hk
      exact h.take hk rfl
    · exact h.met (Fault.about_expected _ _)

/-- A missing name is reported at the token in its place. -/
theorem readName_stepped (h : Reached all ts) :
    Stepped last all (fun r => Reached all r.2.1) (readName last ts) := by
  unfold readName
  split
  · exact h.met (Fault.about_expected _ _)
  · split
    · rename_i hk
      exact h.take hk rfl
    · exact h.met (Fault.about_expected _ _)

/-- Stars are read on from where reading stands. -/
theorem reached_readStars (ty : Ty) (h : Reached all ts) : Reached all (readStars ty ts).2.1 := by
  induction ts generalizing ty with
  | nil => exact h
  | cons t ts ih =>
    unfold readStars
    split
    · rename_i hk
      exact ih (.pointer ty) (h.take hk rfl)
    · exact h

theorem isValid_of_baseTy? {ty : Ty} (h : baseTy? k = some ty) : k.isValid = true := by
  cases k with
  | invalid m => cases h
  | _ => rfl

/-- A missing type is reported at the token in its place. -/
theorem readTy_stepped (h : Reached all ts) :
    Stepped last all (fun r => Reached all r.2.1) (readTy last ts) := by
  unfold readTy
  split
  · exact h.met (Fault.about_expected _ _)
  · split
    · rename_i t ts base hbase
      exact reached_readStars base (h.take rfl (isValid_of_baseTy? hbase))
    · exact h.met (Fault.about_expected _ _)

theorem readCast_stepped (h : Reached all ts) :
    Stepped last all (fun r => Reached all r.2.1) (readCast last ts) :=
  (readTy_stepped h).bind fun _ hty => (expect_stepped hty).bind fun _ hparen => hparen

theorem operator?_faultsIn {F : Set Fault} {ob : Bool} {p : Punct} {line : Nat} {n : Node}
    (h : operator? ob p line = some n) : n.FaultsIn F := by
  cases p <;> cases ob <;> cases h <;> trivial

/-! ## §3. Expressions -/

/-- A phrase was read with faults that reading can meet, and what is left of
the tokens, if anything is said to be, is reached. -/
structure Heard (all : List Token) (faults : Prop) (rest? : Option (List Token)) : Prop where
  faults : faults
  reached : ∀ {rest : List Token}, rest? = some rest → Reached all rest

namespace Heard

variable {faults faults' : Prop} {rest : List Token} {rest? : Option (List Token)}

/-- Reading ended. -/
theorem ended (h : faults) : Heard all faults none := ⟨h, nofun⟩

/-- Tokens are left. -/
theorem left (h : faults) (hrest : Reached all rest) : Heard all faults (some rest) :=
  ⟨h, fun heq => Option.some.inj heq ▸ hrest⟩

/-- The phrase is part of another. -/
theorem imp (h : Heard all faults rest?) (himp : faults → faults') : Heard all faults' rest? :=
  ⟨himp h.faults, h.reached⟩

end Heard

/-- The faults of shape are among those that reading can meet. -/
theorem Run.shapeIn_met (r : Run) : r.ShapeIn (met last all) := .inr shapeFaults_subset_met

theorem Stop.isValid_of_ends {stop : Stop} (h : stop.ends k = true) : k.isValid = true := by
  cases k with
  | invalid m => cases stop <;> cases h
  | _ => rfl

mutual

/-- All faults in an operand or operator are at tokens that were met. -/
theorem NodeRead.heard {ob : Bool} {t : Token} {ts : List Token} {n : Node}
    {rest : Option (List Token)} : NodeRead last ob t ts n rest →
    Reached all (t :: ts) → Heard all (n.FaultsIn (met last all)) rest
  | .int hk, h => .left trivial (h.take hk rfl)
  | .float hk, h => .left trivial (h.take hk rfl)
  | .call hk hargs, h => hargs.heard ((h.take hk rfl).take rfl rfl)
  | .name hk _, h => .left trivial (h.take hk rfl)
  | .cast hk _ hcast, h => .left trivial ((readCast_stepped (h.take hk rfl)).ok hcast)
  | .badCast hk _ hcast, h => .ended ((readCast_stepped (h.take hk rfl)).met hcast)
  | .group hk _ hrun, h => hrun.heard (h.take hk rfl)
  | .operator _ hk hop, h => .left (operator?_faultsIn hop) (h.take hk rfl)
  | .noOperator .., h => .ended (h.met (Fault.about_unexpected t))
  | .unexpected .., h => .ended (h.met (Fault.about_unexpected t))

/-- **An expression leaves only faults that reading can meet.** -/
theorem RunRead.heard {stop : Stop} {ob : Bool} {ts : List Token} {e : Run}
    {rest : Option (Token × List Token)} : RunRead last stop ob ts e rest →
    Reached all ts → Heard all (e.FaultsIn (met last all)) (rest.map Prod.snd)
  | .nil, h => .ended ⟨h.met (Fault.about_unexpected _), Run.shapeIn_met _⟩
  | .atStop _, h => .ended ⟨h.met (Fault.about_expected _ _), Run.shapeIn_met _⟩
  | .broken _ hnode, h => .ended ⟨(hnode.heard h).faults, Run.shapeIn_met _⟩
  | .unended _ hnode, h => by
    -- the tokens end within the run: the fault is about the end of the text
    have hend : Reached all [] := (hnode.heard h).reached rfl
    exact .ended
      ⟨⟨(hnode.heard h).faults, hend.met (Fault.about_unexpected _)⟩, Run.shapeIn_met _⟩
  | .last _ hnode hs, h => by
    -- the word that ends the run is taken with it
    have hrest := (hnode.heard h).reached rfl
    exact .left ⟨(hnode.heard h).faults, Run.shapeIn_met _⟩
      (hrest.take rfl (Stop.isValid_of_ends hs))
  | .more _ hnode _ hrun, h =>
    (hrun.heard ((hnode.heard h).reached rfl)).imp
      fun hfaults => ⟨⟨(hnode.heard h).faults, hfaults.1⟩, Run.shapeIn_met _⟩

theorem ArgsRead.heard {ts : List Token} {args : Args} {rest : Option (List Token)} :
    ArgsRead last ts args rest → Reached all ts → Heard all (args.FaultsIn (met last all)) rest
  | .none, h => .left trivial (h.take rfl rfl)
  | .some _ hmore, h => hmore.heard h

/-- Faults in arguments after the first are at tokens met. -/
theorem MoreArgsRead.heard {ts : List Token} {args : Args} {rest : Option (List Token)} :
    MoreArgsRead last ts args rest → Reached all ts → Heard all (args.FaultsIn (met last all)) rest
  | .broken hrun, h => (hrun.heard h).imp fun he => ⟨he.1, he.2, trivial⟩
  | .comma hrun _ hmore, h => by
    have he := hrun.heard h
    exact (hmore.heard (he.reached rfl)).imp
      fun hargs => ⟨he.faults.1, he.faults.2, hargs⟩
  | .last hrun _, h => (hrun.heard h).imp fun he => ⟨he.1, he.2, trivial⟩

end

/-- Faults in a run are at tokens met. -/
theorem readRun_heard {stop : Stop} {ob : Bool} {e : Run} {rest : Option (Token × Left ts.length)}
    (h : Reached all ts) (hread : readRun last stop ob ts = (e, rest)) :
    Heard all (e.FaultsIn (met last all)) (rest.map (·.2.1)) := by
  have hheard := (readRun_read hread).heard h
  rw [Option.map_map] at hheard
  exact hheard

/-! ## §4. Declarations -/

/-- Faults in lengths of arrays are at tokens met. -/
theorem readLengths_heard (last : Nat) (h : Reached all ts) :
    Heard all (∀ r ∈ (readLengths last ts).1, r.FaultsIn (met last all))
      ((readLengths last ts).2.map (·.1)) := by
  induction ts using readLengths.induct last with
  | case1 line after e hrun =>
    have hheard := readRun_heard (h.take rfl rfl) hrun
    rw [readLengths_broken hrun]
    exact .ended (List.forall_mem_singleton.2 hheard.faults)
  | case2 line after e s rest hrun es rest' hmore ih =>
    have hheard := readRun_heard (h.take rfl rfl) hrun
    have ih := ih (hheard.reached rfl)
    rw [hmore] at ih
    rw [readLengths_more hrun hmore, Option.map_map]
    exact ih.imp fun hes => List.forall_mem_cons.2 ⟨hheard.faults, hes⟩
  | case3 ts hne =>
    rw [readLengths_none hne]
    exact .left (List.forall_mem_nil _) h

/-- Faults in an initial value are at tokens met. -/
theorem readInitial_heard (h : Reached all ts) :
    Heard all ((readInitial last ts).1.FaultsIn (met last all))
      ((readInitial last ts).2.map (·.1)) := by
  unfold readInitial
  split
  · dsimp only
    rw [Option.map_map]
    exact readRun_heard (h.take rfl rfl) rfl
  · cases hsemi : expect last .semicolon ts with
    | error f => exact .ended ((expect_stepped h).met hsemi)
    | ok rest => exact .left trivial ((expect_stepped h).ok hsemi)

/-- Faults in a declaration, or in its place, are at tokens met. -/
theorem readDeclaration_stepped (h : Reached all ts) :
    Stepped last all (fun r => Heard all (r.1.FaultsIn (met last all)) (r.2.map (·.1)))
      (readDeclaration last ts) := by
  refine (readTy_stepped h).bind fun ⟨base, afterTy⟩ hty => ?_
  refine (readName_stepped hty).bind fun ⟨⟨x, line⟩, afterName⟩ hname => ?_
  have hlengths := readLengths_heard last hname
  dsimp only
  split
  · rename_i lengths hl
    rw [hl] at hlengths
    exact .ended ⟨hlengths.faults, trivial⟩
  · rename_i lengths afterLengths hl
    rw [hl] at hlengths
    show Heard all _ (Option.map _ (Option.map _ _))
    rw [Option.map_map]
    exact (readInitial_heard (hlengths.reached rfl)).imp fun hinit => ⟨hlengths.faults, hinit⟩

/-! ## §5. Statements -/

theorem faultIn_some {F : Set Fault} {f : Fault} (h : f ∈ F) : faultIn F (some f) := by
  intro g hg
  cases hg
  exact h

/-- Faults in a condition are at tokens met. -/
theorem readCondition_heard {cond : Run} {rest : Option (Left ts.length)} (h : Reached all ts)
    (hread : readCondition last ts = (cond, rest)) :
    Heard all (cond.FaultsIn (met last all)) (rest.map (·.1)) := by
  unfold readCondition at hread
  cases hparen : expect last .lparen ts with
  | error f =>
    rw [hparen] at hread
    cases hread
    exact .ended ⟨(expect_stepped h).met hparen, Run.shapeIn_met _⟩
  | ok after =>
    rw [hparen] at hread
    cases hread
    rw [Option.map_map]
    exact readRun_heard ((expect_stepped h).ok hparen) rfl

/-- A missing semicolon is reported at a token met. -/
theorem readJumpEnd_heard {fault : Option Fault} {rest : Option (Left ts.length)}
    (h : Reached all ts) (hread : readJumpEnd last ts = (fault, rest)) :
    Heard all (faultIn (met last all) fault) (rest.map (·.1)) := by
  unfold readJumpEnd at hread
  cases hsemi : expect last .semicolon ts with
  | error f =>
    rw [hsemi] at hread
    cases hread
    exact .ended (faultIn_some ((expect_stepped h).met hsemi))
  | ok rest =>
    rw [hsemi] at hread
    cases hread
    exact .left (faultIn_none _) ((expect_stepped h).ok hsemi)

/-- Reading goes on after the word of the other branch. -/
theorem reached_afterTest (h : Reached all ts) : Reached all ((afterTest ts).rest ts) := by
  cases ts with
  | nil => exact h
  | cons t ts =>
    by_cases ht : t.kind = .keyword .kwElse
    · have hts := h.take ht rfl
      cases ts with
      | nil => simpa [afterTest, ht, AfterTest.rest, Left.tail] using hts
      | cons s rest =>
        by_cases hs : s.kind = .keyword .kwIf
        · simpa [afterTest, ht, hs, AfterTest.rest, Left.tail, Left.succ] using
            hts.take hs rfl
        · simpa [afterTest, ht, hs, AfterTest.rest, Left.tail] using hts
    · simpa [afterTest, ht, AfterTest.rest] using h

mutual

/-- **A statement leaves only faults that reading can meet.** -/
theorem StmtRead.heard {ts : List Token} {s : Stmt} {rest : Option (List Token)} :
    StmtRead last ts s rest →
    Reached all ts → Heard all (s.FaultsIn (met last all)) rest
  | .nil hrun, h => hrun.heard h
  | .declare _ hdecl, h => (readDeclaration_stepped h).ok hdecl
  | .badDeclaration _ hdecl, h => .ended ((readDeclaration_stepped h).met hdecl)
  | .ret hk, h => .left trivial ((h.take hk rfl).take rfl rfl)
  | .retValue hk _ hrun, h => hrun.heard (h.take hk rfl)
  | .branch hk hbranch, h => hbranch.heard (h.take hk rfl)
  | .badLoop hk hcond, h =>
    .ended ⟨(readCondition_heard (h.take hk rfl) hcond).faults, trivial⟩
  | .loop hk hcond hblock, h => by
    have hheard := readCondition_heard (h.take hk rfl) hcond
    exact (hblock.heard (hheard.reached rfl)).imp fun hbody => ⟨hheard.faults, hbody⟩
  | .leave hk hend, h => readJumpEnd_heard (h.take hk rfl) hend
  | .again hk hend, h => readJumpEnd_heard (h.take hk rfl) hend
  | .expr _ hrun _ _ _ _ _, h => hrun.heard h

theorem BlockRead.heard {ts : List Token} {body : List Stmt} {rest : Option (List Token)} :
    BlockRead last ts body rest →
    Reached all ts → Heard all (Stmt.AllFaultsIn (met last all) body) rest
  | .broken hbrace, h => .ended ⟨(expect_stepped h).met hbrace, trivial⟩
  | .ok hbrace hrest, h => hrest.heard ((expect_stepped h).ok hbrace)

/-- Faults in the statements of a block are at tokens met. -/
theorem BlockRestRead.heard {ts : List Token} {body : List Stmt} {rest : Option (List Token)} :
    BlockRestRead last ts body rest →
    Reached all ts → Heard all (Stmt.AllFaultsIn (met last all) body) rest
  | .nil, h => .ended ⟨h.met (Fault.about_expected _ _), trivial⟩
  | .ends hk, h => .left trivial (h.take hk rfl)
  | .broken _ hstmt, h => .ended ⟨(hstmt.heard h).faults, trivial⟩
  | .more _ hstmt hrest, h =>
    (hrest.heard ((hstmt.heard h).reached rfl)).imp
      fun hbody => ⟨(hstmt.heard h).faults, hbody⟩

/-- Faults in a test and its branches are at tokens met. -/
theorem BranchRead.heard {ts : List Token} {b : Run × List Stmt × Else}
    {rest : Option (List Token)} : BranchRead last ts b rest → Reached all ts →
    Heard all (b.1.FaultsIn (met last all) ∧ Stmt.AllFaultsIn (met last all) b.2.1 ∧
      b.2.2.FaultsIn (met last all)) rest
  | .badCondition hcond, h => .ended ⟨(readCondition_heard h hcond).faults, trivial, trivial⟩
  | .badBlock hcond hblock, h => by
    have hheard := readCondition_heard h hcond
    exact .ended ⟨hheard.faults, (hblock.heard (hheard.reached rfl)).faults, trivial⟩
  | .ok hcond hblock helse, h => by
    have hheard := readCondition_heard h hcond
    have hbody := hblock.heard (hheard.reached rfl)
    exact (helse.heard (hbody.reached rfl)).imp
      fun hother => ⟨hheard.faults, hbody.faults, hother⟩

/-- Faults in the other branch are at tokens met. -/
theorem ElseRead.heard {ts : List Token} {e : Else} {rest : Option (List Token)} :
    ElseRead last ts e rest → Reached all ts → Heard all (e.FaultsIn (met last all)) rest
  | .nothing _, h => .left trivial h
  | .test hafter hbranch, h => by
    -- two words are taken before the test, and in the next case one before the block
    have hreached := reached_afterTest h
    rw [hafter] at hreached
    exact hbranch.heard hreached
  | .block hafter hblock, h => by
    have hreached := reached_afterTest h
    rw [hafter] at hreached
    exact hblock.heard hreached

end

/-! ## §6. Items -/

/-- A missing comma or parenthesis is reported in its place. -/
theorem readParamEnd_stepped (h : Reached all ts) :
    Stepped last all (fun r => Reached all r.2.1) (readParamEnd last ts) := by
  unfold readParamEnd
  split
  · exact h.met (Fault.about_expected _ _)
  · split
    · rename_i hk
      exact h.take hk rfl
    · split
      · rename_i hk
        exact h.take hk rfl
      · exact h.met (Fault.about_expected _ _)

/-- Parameters are read on, or one is reported. -/
theorem readParams_stepped (h : Reached all ts) :
    Stepped last all (fun rest => Reached all rest.1) (readParams last ts).2 := by
  induction ts using readParams.induct last with
  | case1 ts f hty =>
    rw [readParams_badTy hty]
    exact (readTy_stepped h).met hty
  | case2 ts ty afterTy hty f hname =>
    rw [readParams_badName hty hname]
    exact (readName_stepped ((readTy_stepped h).ok hty)).met hname
  | case3 ts ty afterTy hty x line afterName hname f hend =>
    have hafter := (readName_stepped ((readTy_stepped h).ok hty)).ok hname
    rw [readParams_badEnd hty hname hend]
    exact (readParamEnd_stepped hafter).met hend
  | case4 ts ty afterTy hty x line afterName hname rest hend params result hmore ih =>
    have hafter := (readName_stepped ((readTy_stepped h).ok hty)).ok hname
    have ih := ih ((readParamEnd_stepped hafter).ok hend)
    rw [hmore] at ih
    rw [readParams_comma hty hname hend hmore]
    cases result with
    | error f => exact ih
    | ok after => exact ih
  | case5 ts ty afterTy hty x line afterName hname rest hend =>
    have hafter := (readName_stepped ((readTy_stepped h).ok hty)).ok hname
    rw [readParams_paren hty hname hend]
    exact (readParamEnd_stepped hafter).ok hend

/-- A list of parameters is read on, or one is reported. -/
theorem readParamList_stepped (h : Reached all ts) :
    Stepped last all (fun rest => Reached all rest.1) (readParamList last ts).2 := by
  unfold readParamList
  split
  · exact h.take rfl rfl
  · exact readParams_stepped h

/-- The head of a function is read on, or a fault in it is reported. -/
theorem readSignature_stepped (h : Reached all ts) :
    Stepped last all (fun r => Heard all (faultIn (met last all) r.1.fault) (r.2.map (·.1)))
      (readSignature last ts) := by
  refine (readTy_stepped h).bind fun ⟨ret, afterTy⟩ hty => ?_
  refine (readName_stepped hty).bind fun ⟨⟨x, line⟩, afterName⟩ hname => ?_
  refine (expect_stepped hname).bind fun afterParen hparen => ?_
  have hparams : Stepped last all (fun rest => Reached all rest.1)
      (readParamList last afterParen.1).2 := readParamList_stepped hparen
  split
  · rename_i params f hlist
    rw [hlist] at hparams
    exact .ended (faultIn_some hparams)
  · rename_i params rest hlist
    rw [hlist] at hparams
    exact .left (faultIn_none _) hparams

/-- A fault at the end of an import is at a token met. -/
theorem readImportEnd_heard {fault : Option Fault} {rest : Option (Left ts.length)}
    (h : Reached all ts) (hread : readImportEnd last ts = (fault, rest)) :
    Heard all (faultIn (met last all) fault) (rest.map (·.1)) := by
  unfold readImportEnd at hread
  split at hread
  · -- a body for a function of the host: the fault is about its brace
    cases hread
    exact .ended (faultIn_some (h.met ⟨rfl, nofun⟩))
  · exact readJumpEnd_heard h hread

/-- Faults in a body are at tokens met. -/
theorem readBody_heard {body : Body} {rest : Option (Left ts.length)} (h : Reached all ts)
    (hread : readBody last ts = (body, rest)) :
    Heard all (body.FaultsIn (met last all)) (rest.map (·.1)) := by
  cases ts with
  | nil =>
    cases hread
    exact .ended (h.met (Fault.about_expected _ _))
  | cons t after =>
    unfold readBody at hread
    dsimp only at hread
    split at hread
    · rename_i hk
      cases hread
      exact .left trivial (h.take hk rfl)
    · split at hread
      · rename_i hk
        cases hread
        rw [Option.map_map]
        exact ((statements_read last).2.2.1 after).heard (h.take hk rfl)
      · cases hread
        exact .ended (h.met (Fault.about_expected _ _))

/-- **All faults in an item are at tokens that were met.**. -/
theorem ItemRead.heard {t : Token} {i : Item} {rest : Option (List Token)}
    (hread : ItemRead last t ts i rest) (h : Reached all (t :: ts)) :
    Heard all (i.FaultsIn (met last all)) rest := by
  cases hread with
  | badImport hk hsig => exact .ended ((readSignature_stepped (h.take hk rfl)).met hsig)
  | importHead hk hsig =>
    have hheard := (readSignature_stepped (h.take hk rfl)).ok hsig
    exact .ended ⟨hheard.faults, faultIn_none _⟩
  | imported hk hsig hend =>
    have hheard := (readSignature_stepped (h.take hk rfl)).ok hsig
    exact (readImportEnd_heard (hheard.reached rfl) hend).imp fun hend => ⟨hheard.faults, hend⟩
  | badFunction _ _ hsig => exact .ended ((readSignature_stepped h).met hsig)
  | functionHead _ _ hsig => exact .ended ⟨((readSignature_stepped h).ok hsig).faults, trivial⟩
  | function _ _ hsig hbody =>
    have hheard := (readSignature_stepped h).ok hsig
    exact (readBody_heard (hheard.reached rfl) hbody).imp fun hbody => ⟨hheard.faults, hbody⟩
  | badGlobal _ _ _ hdecl => exact .ended ((readDeclaration_stepped h).met hdecl)
  | global _ _ _ hdecl => exact (readDeclaration_stepped h).ok hdecl
  | other => exact .ended (h.met (Fault.about_notDeclaration t))

/-- **An outline holds only faults that reading can meet**, and if it is whole
every token was taken. -/
theorem readItems_heard (last : Nat) (h : Reached all ts) :
    (∀ i ∈ readItems last ts, i.FaultsIn (met last all)) ∧
      ((∀ i ∈ readItems last ts, i.whole = true) → Reached all []) := by
  have his := readItems_read last ts
  generalize readItems last ts = is at his ⊢
  induction his with
  | nil => exact ⟨List.forall_mem_nil _, fun _ => h⟩
  | broken hitem =>
    refine ⟨List.forall_mem_singleton.2 (hitem.heard h).faults, fun hwhole => ?_⟩
    -- reading ended within the item, which is not whole then
    have hi := List.forall_mem_singleton.1 hwhole
    rw [hitem.took.1] at hi
    cases hi
  | more hitem _ ih =>
    have hheard := hitem.heard h
    have ih := ih (hheard.reached rfl)
    exact ⟨List.forall_mem_cons.2 ⟨hheard.faults, ih.1⟩,
      fun hwhole => ih.2 (List.forall_mem_cons.1 hwhole).2⟩

end Outline

end MiniC
