/-
  MiniC.Proofs.Termination.Items

  Functions, global variables and whole texts read on demand.

  Whether a function follows is found by a look ahead that takes nothing.  The
  items of a text are those of its outline (`items_eq`).
-/
import MiniC.Proofs.Termination.Statements

namespace MiniC.Scan.Place

open Demand (Turn Loop)
open Outline

variable {p q : Place} {last : Nat} {t : Token} {ts : List Token}

/-! ## §1. Heads of functions -/

/-- The sign after a parameter is read by both. -/
theorem paramEnd_matches (h : Stands p last ts) :
    Matches (Taken p last) (readParamEnd last ts) (paramEnd p) := by
  cases ts with
  | nil =>
    rw [paramEnd, ahead_of_stands h]
    exact .error _
  | cons t ts =>
    rw [readParamEnd, paramEnd, h.ahead]
    split
    · exact .ok ⟨rfl, h.after⟩
    · split
      · exact .ok ⟨rfl, h.after⟩
      · exact .error _

theorem params_loop : Loop paramsTurn params := by
  intro p
  rw [params]
  exact bind_congr fun t => by cases t <;> rfl

/-- What a turn does after the type of a parameter. -/
theorem paramsTurn_of_type {ty : Ty} (h : (type p).run = some (.ok (ty, q))) :
    paramsTurn p =
      match name q with
      | .error f => some (.ends ([], .error f))
      | .ok ((x, line), afterName) =>
        match paramEnd afterName with
        | .error f => some (.ends ([⟨ty, x, line⟩], .error f))
        | .ok (.comma, q) => some (.goesOn (fun r => (⟨ty, x, line⟩ :: r.1, r.2)) q)
        | .ok (.paren, q) => some (.ends ([⟨ty, x, line⟩], .ok q)) := by
  rw [paramsTurn, h]
  rfl

/-- Parameters are read as the outline has them, and what follows them too. -/
def ParamsAgree (p : Place) (last : Nat) {m : Nat} (read : List Param × Except Fault (Left m))
    (x : Option (List Param × Except Fault Place)) : Prop :=
  ∃ place, x = some (read.1, place) ∧
    Matches (fun rest q => After (unread p) last rest.1 q) read.2 place

/-- **Parameters are read by both**, one for each turn of the loop. -/
theorem params_agrees (h : Stands p last ts) :
    ParamsAgree p last (readParams last ts) (params p) := by
  -- in each case first what one turn does, and then what the loop makes of it
  induction ts using readParams.induct last generalizing p with
  | case1 ts f hty =>
    have hturn : paramsTurn p = some (.ends ([], .error f)) := by
      rw [paramsTurn, (type_answers h).fault hty]
      rfl
    rw [readParams_badTy hty, params_loop.of_ends hturn]
    exact ⟨_, rfl, .error f⟩
  | case2 ts ty afterTy hty f hname =>
    obtain ⟨⟨ty, q⟩, hq, rfl, hafterTy⟩ := (type_answers h).result hty
    have hx := (name_matches hafterTy.stands).fault hname
    have hturn : paramsTurn p = some (.ends ([], .error f)) := by
      rw [paramsTurn_of_type hq, hx]
    rw [readParams_badName hty hname, params_loop.of_ends hturn]
    exact ⟨_, rfl, .error f⟩
  | case3 ts ty afterTy hty x line afterName hname f hend =>
    obtain ⟨⟨ty, q⟩, hq, rfl, hafterTy⟩ := (type_answers h).result hty
    obtain ⟨⟨_, r⟩, hr, rfl, hafterName⟩ := (name_matches hafterTy.stands).result hname
    have he := (paramEnd_matches hafterName.stands).fault hend
    have hturn : paramsTurn p = some (.ends ([⟨ty, x, line⟩], .error f)) := by
      rw [paramsTurn_of_type hq, hr]
      dsimp only
      rw [he]
    rw [readParams_badEnd hty hname hend, params_loop.of_ends hturn]
    exact ⟨_, rfl, .error f⟩
  | case4 ts ty afterTy hty x line afterName hname rest hend ps result hmore ih =>
    obtain ⟨⟨ty, q⟩, hq, rfl, hafterTy⟩ := (type_answers h).result hty
    obtain ⟨⟨_, r⟩, hr, rfl, hafterName⟩ := (name_matches hafterTy.stands).result hname
    obtain ⟨⟨_, s⟩, hs, rfl, hafterEnd⟩ := (paramEnd_matches hafterName.stands).result hend
    have hturn : paramsTurn p = some (.goesOn (fun r => (⟨ty, x, line⟩ :: r.1, r.2)) s) := by
      rw [paramsTurn_of_type hq, hr]
      dsimp only
      rw [hs]
    obtain ⟨place, hplace, hmatches⟩ := ih hafterEnd.stands
    rw [hmore] at hplace hmatches
    have hle := Nat.lt_trans hafterEnd.fewer (Nat.lt_trans hafterName.fewer hafterTy.fewer)
    rw [readParams_comma hty hname hend hmore, params_loop.of_goesOn hturn, hplace]
    refine ⟨place, rfl, ?_⟩
    cases hmatches with
    | error f => exact .error f
    | ok hafter => exact .ok (hafter.trans (Nat.le_of_lt hle))
  | case5 ts ty afterTy hty x line afterName hname rest hend =>
    obtain ⟨⟨ty, q⟩, hq, rfl, hafterTy⟩ := (type_answers h).result hty
    obtain ⟨⟨_, r⟩, hr, rfl, hafterName⟩ := (name_matches hafterTy.stands).result hname
    obtain ⟨⟨_, s⟩, hs, rfl, hafterEnd⟩ := (paramEnd_matches hafterName.stands).result hend
    have hturn : paramsTurn p = some (.ends ([⟨ty, x, line⟩], .ok s)) := by
      rw [paramsTurn_of_type hq, hr]
      dsimp only
      rw [hs]
    rw [readParams_paren hty hname hend, params_loop.of_ends hturn]
    exact ⟨_, rfl, .ok (hafterEnd.trans
      (Nat.le_of_lt (Nat.lt_trans hafterName.fewer hafterTy.fewer)))⟩

/-- A list of parameters is read by both. -/
theorem paramList_agrees (h : Stands p last ts) :
    ParamsAgree p last (readParamList last ts) (paramList p) := by
  unfold readParamList
  split
  · rw [paramList, h.ahead, if_pos rfl]
    exact ⟨_, rfl, .ok h.after⟩
  · rename_i hne
    rw [paramList, ahead_of_stands h, if_neg (kind_front_ne (by decide) hne)]
    exact params_agrees h

/-- The head of a function is read by both. -/
theorem signature_answers (h : Stands p last ts) :
    Answers (ReadTo p last) (readSignature last ts) (signature p) := by
  refine (type_answers h).bind fun ⟨ret, afterTy⟩ ⟨ret', q⟩ hty => ?_
  obtain ⟨rfl, hty⟩ := hty
  refine (Answers.lift (name_matches hty.stands)).bind fun ⟨x, afterName⟩ ⟨x', q'⟩ hname => ?_
  obtain ⟨rfl, hname⟩ := hname
  refine (Answers.lift (expect_matches hname.stands .lparen)).bind fun afterParen r hparen => ?_
  obtain ⟨place, hplace, hmatches⟩ := paramList_agrees hparen.stands
  dsimp only
  cases hread : readParamList last afterParen.1 with
  | mk ps result =>
    rw [hread] at hplace hmatches
    refine .first hplace ?_
    cases hmatches with
    | error f => exact .ok ⟨rfl, .nothing⟩
    | ok hafter =>
      have hle := Nat.lt_trans hparen.fewer (Nat.lt_trans hname.fewer hty.fewer)
      exact .ok ⟨rfl, .tokens (hafter.trans (Nat.le_of_lt hle))⟩

/-! ## §2. Items -/

/-- The end of an import is read by both. -/
theorem importEnd_agrees (h : Stands p last ts) :
    Agrees (unread p) last (readImportEnd last ts).1 ((readImportEnd last ts).2.map (·.1))
      (some (importEnd p)) := by
  unfold readImportEnd
  split
  · rw [importEnd, h.ahead, if_pos rfl]
    exact .failed _
  · rename_i hne
    rw [importEnd, ahead_of_stands h, if_neg (kind_front_ne (by decide) hne)]
    exact jumpEnd_agrees h rfl

/-- A body is read by both. -/
theorem body_agrees (h : Stands p last ts) :
    Agrees (unread p) last (readBody last ts).1 ((readBody last ts).2.map (·.1)) (body p) := by
  cases ts with
  | nil =>
    rw [body, ahead_of_stands h]
    exact .failed _
  | cons t after =>
    by_cases hsemi : t.kind = .punct .semicolon
    · rw [readBody_none hsemi, body, h.ahead, if_pos hsemi]
      exact .left _ h.after
    · by_cases hbrace : t.kind = .punct .lbrace
      · have hblock := ((statements_read last).2.2.1 after).agrees h.next
        rw [readBody_block hbrace rfl, Option.map_map, body, h.ahead, if_neg hsemi,
          if_pos hbrace]
        exact hblock.part (Nat.le_of_lt h.fewer) Body.block
      · rw [readBody_broken hsemi hbrace, body, h.ahead, if_neg hsemi, if_neg hbrace]
        exact .failed _

/-- A name and a parenthesis are seen by both. -/
theorem startsCall_eq (h : Stands p last ts) : startsCall p = Outline.startsCall ts := by
  unfold Outline.startsCall
  split
  · rw [startsCall, h.ahead, h.next.ahead]
  · rename_i hne
    unfold startsCall
    split
    · rename_i x hx hparen
      -- such kinds are not those of the end, so the two tokens stand there
      cases ts with
      | nil =>
        rw [ahead_of_stands h] at hx
        cases hx
      | cons t ts =>
        cases ts with
        | nil =>
          rw [ahead_of_stands h.next] at hparen
          cases hparen
        | cons s rest =>
          rw [h.ahead] at hx
          rw [h.next.ahead] at hparen
          obtain ⟨_, line⟩ := t
          obtain ⟨_, line'⟩ := s
          cases hx
          cases hparen
          exact (hne _ _ _ _ rfl).elim
    · rfl

/-- The start of a function is seen by both. -/
theorem startsFunction_eq (h : Stands p last ts) :
    startsFunction p = some (Outline.startsFunction ts) := by
  rw [startsFunction, isType_ahead h]
  cases ts with
  | nil => rfl
  | cons t after =>
    rw [Outline.startsFunction]
    cases startsType (t :: after) with
    | false => rfl
    | true =>
      obtain ⟨q, hq, hafter⟩ := stars_agrees .void h.next
      rw [if_pos rfl, hq, Bool.true_and, List.tail_cons, skipStars_eq .void,
        ← startsCall_eq hafter.stands]
      rfl

/-- What a head comes to: no head, one with a fault in it, or one with tokens
left. -/
theorem signature_cases (h : Stands p last ts) :
    (∃ f, readSignature last ts = .error f ∧ (signature p).run = some (.error f)) ∨
      (∃ sig, readSignature last ts = .ok (sig, none) ∧
        (signature p).run = some (.ok (sig, none))) ∨
      ∃ sig rest q, readSignature last ts = .ok (sig, some rest) ∧
        (signature p).run = some (.ok (sig, some q)) ∧ After (unread p) last rest.1 q := by
  cases hsig : readSignature last ts with
  | error f => exact .inl ⟨f, rfl, (signature_answers h).fault hsig⟩
  | ok r =>
    obtain ⟨⟨_, place⟩, hs, rfl, hleaves⟩ := (signature_answers h).result hsig
    obtain ⟨sig, rest⟩ := r
    cases rest with
    | none =>
      cases hleaves
      exact .inr (.inl ⟨sig, rfl, hs⟩)
    | some rest =>
      cases hleaves with
      | tokens hafter => exact .inr (.inr ⟨sig, rest, _, rfl, hs, hafter⟩)

/-- An import is read by both. -/
theorem imported_agrees (h : Stands (next p) last ts) :
    Agrees (unread p) last (readImport last ts).1 ((readImport last ts).2.map (·.1))
      (imported p) := by
  rw [readImport, imported]
  obtain ⟨f, hread, hs⟩ | ⟨sig, hread, hs⟩ | ⟨sig, rest, q, hread, hs, hafter⟩ :=
    signature_cases h
  · rw [hread, hs]
    exact .failed _
  · rw [hread, hs]
    exact .failed _
  · have hle := Nat.le_trans (Nat.le_of_lt hafter.fewer) (unread_next_le p)
    rw [hread, hs, Option.map_map]
    exact (importEnd_agrees hafter.stands).part hle (Outline.Item.imported sig)

/-- A function is read by both. -/
theorem function_agrees (h : Stands p last ts) :
    Agrees (unread p) last (readFunction last ts).1 ((readFunction last ts).2.map (·.1))
      (function p) := by
  rw [readFunction, function]
  obtain ⟨f, hread, hs⟩ | ⟨sig, hread, hs⟩ | ⟨sig, rest, q, hread, hs, hafter⟩ :=
    signature_cases h
  · rw [hread, hs]
    exact .failed _
  · rw [hread, hs]
    exact .failed _
  · rw [hread, hs, Option.map_map]
    exact (body_agrees hafter.stands).part (Nat.le_of_lt hafter.fewer) (Outline.Item.function sig)

/-- A global is read by both. -/
theorem global_agrees (h : Stands p last ts) :
    Agrees (unread p) last (readGlobal last ts).1 ((readGlobal last ts).2.map (·.1))
      (global p) := by
  rw [readGlobal, global]
  cases hdecl : readDeclaration last ts with
  | error f =>
    rw [(declaration_answers h).fault hdecl]
    exact .failed _
  | ok r =>
    obtain ⟨⟨d, place⟩, hd, rfl, hleaves⟩ := (declaration_answers h).result hdecl
    rw [hd]
    exact ⟨place, rfl, hleaves⟩

/-- **An item is read by both.** -/
theorem item_agrees (h : Stands p last (t :: ts)) :
    Agrees (unread p) last (readItem last t ts).1 ((readItem last t ts).2.map (·.1))
      (item p) := by
  rw [readItem, item, h.ahead, startsFunction_eq h]
  by_cases hextern : t.kind = .keyword .kwExtern
  · rw [if_pos hextern, if_pos hextern, Option.map_map]
    exact imported_agrees h.next
  · rw [if_neg hextern, if_neg hextern]
    cases Outline.startsFunction (t :: ts) with
    | true => exact function_agrees h
    | false =>
      show Agrees _ _ _ _ (if t.kind.isType then global p else _)
      rw [if_neg Bool.false_ne_true]
      split
      · exact global_agrees h
      · exact .failed _

/-- An item that the relation describes is read on demand. -/
theorem item_agrees_of_read {i : Outline.Item} {rest : Option (List Token)}
    (h : Stands p last (t :: ts)) (hread : ItemRead last t ts i rest) :
    Agrees (unread p) last i rest (item p) := by
  obtain ⟨_, hitem, rfl⟩ := eq_of_plain hread.eq
  have hagrees := item_agrees h
  rwa [hitem] at hagrees

theorem items_loop : Loop itemsTurn items := by
  intro p
  rw [items]
  exact bind_congr fun t => by cases t <;> rfl

/-- **The items read on demand are those of the outline.** -/
theorem items_eq (h : Stands p last ts) : items p = some (readItems last ts) := by
  have his := readItems_read last ts
  generalize readItems last ts = is at his ⊢
  induction his generalizing p with
  | nil =>
    have hturn : itemsTurn p = some (.ends []) := by
      rw [itemsTurn, ahead_of_stands h]
      rfl
    rw [items_loop.of_ends hturn]
  | @broken t ts i hitem =>
    have hturn : itemsTurn p = some (.ends [i]) := by
      rw [itemsTurn, if_neg h.ne_endOfFile, (item_agrees_of_read h hitem).of_none]
      rfl
    rw [items_loop.of_ends hturn]
  | @more t ts rest i is hitem _ ih =>
    obtain ⟨q, hq, hafter⟩ := (item_agrees_of_read h hitem).of_some
    have hturn : itemsTurn p = some (.goesOn (i :: ·) q) := by
      rw [itemsTurn, if_neg h.ne_endOfFile, hq]
      rfl
    rw [items_loop.of_goesOn hturn, ih hafter.stands]
    rfl

end MiniC.Scan.Place
