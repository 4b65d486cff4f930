/-
  MiniC.Proofs.Scanning.Lookahead

  **Looking ahead leaves no trace.**

  A reader may read on, look ahead, keep its place and go back to a kept place,
  in any order.  All that can be seen of it is explained by a number, the
  number of tokens before the reader's place (`Position`): each token comes from
  the one list that a reader gets that only reads on, with the same line and
  the same handle for its name.

  Looking ahead does enter names in the table.  What keeps this invisible is
  that the tokens scanned so far are always the first ones of the list: the
  table depends on how many they are and on nothing else (`Marked.Stands`).
-/
import MiniC.Proofs.Scanning.Entries
import MiniC.Token.Reader
import Mathlib.Data.List.Induction

namespace MiniC

open Scan (Place scan)

variable {n : Nat}

/-! ## §1. Names of tokens -/

/-- The names among tokens, in order. -/
def identifiers (ts : List Token) : List String := ts.filterMap (·.kind.name?)

theorem identifiers_concat (ts : List Token) (t : Token) :
    identifiers (ts ++ [t]) = identifiers ts ++ t.kind.name?.toList := by
  rw [identifiers, List.filterMap_append, List.filterMap_cons]
  cases t.kind.name? <;> rfl

namespace Names

/-- The handle that interning the name of a token gives. -/
def handle? (names : Names) (t : Token) : Option Handle :=
  t.kind.name?.map fun x => (names.intern x).1

theorem note_eq (names : Names) (t : Token) :
    names.note t = t.kind.name?.elim names fun x => (names.intern x).2 := by
  obtain ⟨kind, line⟩ := t
  cases kind <;> rfl

theorem ofTokens_concat (ts : List Token) (t : Token) :
    ofTokens (ts ++ [t]) = (ofTokens ts).note t :=
  List.foldl_append

/-- **The table holds the distinct names, in order of first occurrence.** -/
theorem texts_ofTokens (ts : List Token) :
    (ofTokens ts).texts = (identifiers ts).eraseDups := by
  induction ts using List.reverseRecOn with
  | nil => rfl
  | append_singleton ts t ih =>
    rw [ofTokens_concat, note_eq, identifiers_concat]
    cases t.kind.name? with
    | none =>
      rw [Option.toList_none, List.append_nil]
      exact ih
    | some x =>
      rw [Option.toList_some, eraseDups_concat]
      show ((ofTokens ts).intern x).2.texts = _
      rw [texts_intern, ih]
      simp only [List.mem_eraseDups]

/-- A name keeps its handle when names are added. -/
theorem handle?_of_prefix_texts {names names' : Names} {t : Token}
    (hpre : names.texts <+: names'.texts) (ht : ∀ x, t.kind.name? = some x → x ∈ names.texts) :
    names'.handle? t = names.handle? t := by
  unfold handle?
  cases hx : t.kind.name? with
  | none => rfl
  | some x =>
    obtain ⟨more, hmore⟩ := hpre
    have hidx : names'.texts.idxOf x = names.texts.idxOf x := by
      rw [← hmore, List.idxOf_append, if_pos (ht x hx)]
    show some (names'.intern x).1 = some (names.intern x).1
    rw [handle_intern, handle_intern, hidx]

/-- Interning a name again gives the handle it has. -/
theorem handle?_note (names : Names) (t : Token) : (names.note t).handle? t = names.handle? t := by
  rw [note_eq]
  unfold handle?
  cases t.kind.name? with
  | none => rfl
  | some x =>
    show some ((names.intern x).2.intern x).1 = some (names.intern x).1
    rw [handle_intern, idxOf_intern, handle_intern]

/-- A token whose name is known adds nothing. -/
theorem note_of_known {names : Names} {t : Token}
    (ht : ∀ x, t.kind.name? = some x → x ∈ names.texts) : names.note t = names := by
  rw [note_eq]
  cases hx : t.kind.name? with
  | none => rfl
  | some x =>
    obtain ⟨i, hi⟩ := Option.isSome_iff_exists.1 (List.isSome_idxOf?.2 (ht x hx))
    show (names.intern x).2 = names
    rw [intern_of_mem hi]

end Names

/-! ## §2. Reading on -/

/-- The first tokens of a text. -/
def firstTokens (text : String) (n : Nat) : List Token :=
  (List.range n).map (Place.start text).entry

/-- The names among the first tokens of a text. -/
def firstNames (text : String) (n : Nat) : Names := Names.ofTokens (firstTokens text n)

theorem firstTokens_succ (text : String) (n : Nat) :
    firstTokens text (n + 1) = firstTokens text n ++ [(Place.start text).entry n] := by
  rw [firstTokens, List.range_succ, List.map_append]
  rfl

theorem firstNames_succ (text : String) (n : Nat) :
    firstNames text (n + 1) = (firstNames text n).note ((Place.start text).entry n) := by
  rw [firstNames, firstTokens_succ, Names.ofTokens_concat]
  rfl

/-- A token that was scanned has its name in the table. -/
theorem mem_firstNames {text : String} {k : Nat} (h : k < n) {x : String}
    (hx : ((Place.start text).entry k).kind.name? = some x) : x ∈ (firstNames text n).texts := by
  rw [firstNames, Names.texts_ofTokens, List.mem_eraseDups]
  exact List.mem_filterMap.2 ⟨_, List.mem_map.2 ⟨k, List.mem_range.2 h, rfl⟩, hx⟩

/-- Scanning further only adds names. -/
theorem prefix_firstNames (text : String) {m : Nat} (h : m ≤ n) :
    (firstNames text m).texts <+: (firstNames text n).texts := by
  obtain ⟨k, rfl⟩ := Nat.exists_eq_add_of_le h
  rw [firstNames, firstNames, Names.texts_ofTokens, Names.texts_ofTokens, firstTokens, firstTokens,
    List.range_add, List.map_append, identifiers, identifiers, List.filterMap_append,
    List.eraseDups_append]
  exact List.prefix_append _ _

/-- Noting a token among or right after the first tokens. -/
theorem note_firstNames (text : String) {k : Nat} (h : k ≤ n) :
    (firstNames text n).note ((Place.start text).entry k) = firstNames text (max n (k + 1)) := by
  rcases Nat.lt_or_eq_of_le h with hlt | rfl
  · rw [Nat.max_eq_left hlt]
    exact Names.note_of_known fun x hx => mem_firstNames hlt hx
  · rw [Nat.max_eq_right (Nat.le_succ k), firstNames_succ]

namespace Reader

variable {k n : Nat}

/-- A token, and the handle of its name. -/
structure Answer where
  token : Token
  handle : Option Handle
  deriving DecidableEq, Repr

/-- The handle that the token with `n` tokens before it gets when it is
scanned. -/
def handleAt : (n : Nat) → Reader → Option Handle
  | 0, r => r.names.handle? r.next.1
  | n + 1, r => handleAt n r.next.2

/-- The reader after `n` tokens are read on, one by one. -/
def after (r : Reader) : Nat → Reader
  | 0 => r
  | n + 1 => (r.after n).next.2

/-- Reading on moves the place by as many tokens. -/
theorem here_after (r : Reader) (n : Nat) : (r.after n).here = r.here.beyond n := by
  induction n with
  | zero => rfl
  | succ n ih =>
    rw [Scan.Place.beyond_succ, ← ih]
    rfl

theorem next_after (r : Reader) (n : Nat) : (r.after n).next.1 = r.here.entry n := by
  rw [Place.entry, ← here_after]
  rfl

/-- What a reader that only reads on gets as the token with `n` tokens before
it. -/
def plain (text : String) (n : Nat) : Answer :=
  ⟨((ofString text).after n).next.1, handleAt 0 ((ofString text).after n)⟩

/-- After some tokens, their names are entered, and no others. -/
theorem after_ofString (text : String) (n : Nat) :
    (ofString text).after n = ⟨(Place.start text).beyond n, firstNames text n⟩ := by
  induction n with
  | zero => rfl
  | succ n ih =>
    rw [after, ih, next, Place.scan_beyond, firstNames_succ]

/-- Reading on from where the tokens scanned so far are the first `n`. -/
theorem next_at (text : String) (h : k ≤ n) :
    next ⟨(Place.start text).beyond k, firstNames text n⟩ =
      ((Place.start text).entry k,
        ⟨(Place.start text).beyond (k + 1), firstNames text (max n (k + 1))⟩) := by
  rw [next, Place.scan_beyond, ← note_firstNames text h]

/-- Reading over tokens from there. -/
theorem skipNext_at (text : String) (ahead : Nat) (h : k ≤ n) :
    skipNext ahead ⟨(Place.start text).beyond k, firstNames text n⟩ =
      ((Place.start text).entry (k + ahead),
        ⟨(Place.start text).beyond (k + ahead + 1), firstNames text (max n (k + ahead + 1))⟩) := by
  induction ahead generalizing k n with
  | zero => exact next_at text h
  | succ ahead ih =>
    have hle : k + 1 ≤ max n (k + 1) := Nat.le_max_right _ _
    have hmax : max (max n (k + 1)) (k + 1 + ahead + 1) = max n (k + (ahead + 1) + 1) := by omega
    have hsum : k + 1 + ahead = k + (ahead + 1) := by omega
    rw [skipNext, next_at text h]
    show skipNext ahead ⟨_, _⟩ = _
    rw [ih hle, hmax, hsum]

/-- Looking ahead from there. -/
theorem peek_at (text : String) (ahead : Nat) (h : k ≤ n) :
    peek ahead ⟨(Place.start text).beyond k, firstNames text n⟩ =
      ((Place.start text).entry (k + ahead),
        ⟨(Place.start text).beyond k, firstNames text (max n (k + ahead + 1))⟩) := by
  rw [peek, skipNext_at text ahead h]
  rfl

/-- The handle of a token does not depend on how many tokens after it were
scanned before. -/
theorem handle?_firstNames (text : String) (h : k ≤ n) :
    (firstNames text n).handle? ((Place.start text).entry k) =
      (firstNames text k).handle? ((Place.start text).entry k) := by
  -- noting the token makes its name known in both tables, one of which extends the other
  rw [← Names.handle?_note, note_firstNames text h, ← Names.handle?_note (firstNames text k),
    ← firstNames_succ]
  exact Names.handle?_of_prefix_texts (prefix_firstNames text (Nat.le_max_right _ _))
    fun x hx => mem_firstNames (Nat.lt_succ_self k) hx

/-- Looking ahead enters the names up to there, once. -/
theorem handleAt_at (text : String) (ahead : Nat) (h : k ≤ n) :
    handleAt ahead ⟨(Place.start text).beyond k, firstNames text n⟩ =
      (firstNames text (k + ahead)).handle? ((Place.start text).entry (k + ahead)) := by
  induction ahead generalizing k n with
  | zero =>
    rw [handleAt, next_at text h]
    exact handle?_firstNames text h
  | succ ahead ih =>
    have hsum : k + 1 + ahead = k + (ahead + 1) := by omega
    rw [handleAt, next_at text h]
    show handleAt ahead ⟨_, _⟩ = _
    rw [ih (Nat.le_max_right _ _), hsum]

/-- The list that reading on gives. -/
theorem plain_eq (text : String) (n : Nat) :
    plain text n = ⟨(Place.start text).entry n,
      (firstNames text n).handle? ((Place.start text).entry n)⟩ := by
  rw [plain, after_ofString, next_at text (Nat.le_refl n), handleAt_at text 0 (Nat.le_refl n)]
  rfl

/-! ## §3. Any order -/

/-- An operation of a reader. -/
inductive Step where
  /-- Reads on. -/
  | next
  /-- Looks at the token that has so many tokens before it. -/
  | peek (ahead : Nat)
  /-- Keeps the place. -/
  | keep
  /-- Goes back to a place that was kept, counted from the first one. -/
  | restore (i : Nat)
  deriving DecidableEq, Repr

/-- A reader, and the places kept so far, the first one first. -/
structure Marked where
  reader : Reader
  kept : List Place := []
  deriving DecidableEq, Repr

/-- What an operation shows, and what it leaves. -/
def Marked.step (m : Marked) : Step → Option Answer × Marked
  | .next => (some ⟨m.reader.next.1, handleAt 0 m.reader⟩, { m with reader := m.reader.next.2 })
  | .peek ahead =>
    (some ⟨(m.reader.peek ahead).1, handleAt ahead m.reader⟩,
      { m with reader := (m.reader.peek ahead).2 })
  | .keep => (none, { m with kept := m.kept ++ [m.reader.here] })
  | .restore i => (none, m.kept[i]?.elim m fun place => { m with reader := m.reader.jump place })

/-- What operations show, one by one, and what they leave. -/
def Marked.run (m : Marked) : List Step → List (Option Answer) × Marked
  | [] => ([], m)
  | s :: ss => ((m.step s).1 :: ((m.step s).2.run ss).1, ((m.step s).2.run ss).2)

/-- A place in a list of tokens. -/
structure Position where
  /-- How many tokens are before it. -/
  here : Nat := 0
  /-- How many tokens were looked at so far, from the first one on. -/
  seen : Nat := 0
  /-- The places kept so far, the first one first. -/
  kept : List Nat := []
  deriving DecidableEq, Repr

/-- What an operation shows of a list of tokens, and the place it leaves. -/
def Position.step (entries : Nat → Answer) (p : Position) : Step → Option Answer × Position
  | .next => (some (entries p.here), { p with here := p.here + 1, seen := max p.seen (p.here + 1) })
  | .peek ahead =>
    (some (entries (p.here + ahead)), { p with seen := max p.seen (p.here + ahead + 1) })
  | .keep => (none, { p with kept := p.kept ++ [p.here] })
  | .restore i => (none, p.kept[i]?.elim p fun k => { p with here := k })

/-- What operations show of a list of tokens, and the place they leave. -/
def Position.run (entries : Nat → Answer) (p : Position) :
    List Step → List (Option Answer) × Position
  | [] => ([], p)
  | s :: ss =>
    ((p.step entries s).1 :: ((p.step entries s).2.run entries ss).1,
      ((p.step entries s).2.run entries ss).2)

/-- A reader stands at a place in the tokens of a text. -/
structure Marked.Stands (text : String) (m : Marked) (p : Position) : Prop where
  reader : m.reader = ⟨(Place.start text).beyond p.here, firstNames text p.seen⟩
  kept : m.kept = p.kept.map (Place.start text).beyond
  /-- What is before the place was seen, also before a kept place. -/
  here_le : p.here ≤ p.seen
  kept_le : ∀ k ∈ p.kept, k ≤ p.seen

/-- **One operation shows what the list of tokens shows.** -/
theorem Marked.Stands.step {text : String} {m : Marked} {p : Position} (h : m.Stands text p)
    (s : Step) : (m.step s).1 = (p.step (plain text) s).1 ∧
      (m.step s).2.Stands text (p.step (plain text) s).2 := by
  obtain ⟨reader, kept⟩ := m
  obtain ⟨hreader, hkept, hle, hkept_le⟩ := h
  dsimp only at hreader hkept
  subst hreader hkept
  cases s with
  | next =>
    dsimp only [Marked.step, Position.step]
    rw [handleAt_at text 0 hle, next_at text hle, plain_eq]
    refine ⟨rfl, rfl, rfl, Nat.le_max_right _ _, ?_⟩
    intro k hk
    exact Nat.le_trans (hkept_le k hk) (Nat.le_max_left _ _)
  | peek ahead =>
    dsimp only [Marked.step, Position.step]
    rw [handleAt_at text ahead hle, peek_at text ahead hle, plain_eq]
    refine ⟨rfl, rfl, rfl, Nat.le_trans hle (Nat.le_max_left _ _), ?_⟩
    intro k hk
    exact Nat.le_trans (hkept_le k hk) (Nat.le_max_left _ _)
  | keep =>
    refine ⟨rfl, rfl, ?_, hle, ?_⟩
    · show _ ++ [(Place.start text).beyond p.here] = _
      rw [Position.step, List.map_append]
      rfl
    · intro k hk
      rcases List.mem_append.1 hk with hk | hk
      · exact hkept_le k hk
      · rw [List.mem_singleton.1 hk]
        exact hle
  | restore i =>
    dsimp only [Marked.step, Position.step]
    rw [List.getElem?_map]
    cases hk : p.kept[i]? with
    | none => exact ⟨rfl, rfl, rfl, hle, hkept_le⟩
    | some k => exact ⟨rfl, rfl, rfl, hkept_le k (List.mem_of_getElem? hk), hkept_le⟩

/-- **So does any number of operations.** -/
theorem Marked.Stands.run {text : String} (steps : List Step) {m : Marked} {p : Position}
    (h : m.Stands text p) : (m.run steps).1 = (p.run (plain text) steps).1 ∧
      (m.run steps).2.Stands text (p.run (plain text) steps).2 := by
  induction steps generalizing m p with
  | nil => exact ⟨rfl, h⟩
  | cons s ss ih =>
    obtain ⟨hshown, hstep⟩ := h.step s
    obtain ⟨hrest, hrun⟩ := ih hstep
    exact ⟨by rw [Marked.run, Position.run, hshown, hrest], hrun⟩

/-- A reader at the start of a text, with no place kept. -/
def Marked.start (text : String) : Marked := ⟨ofString text, []⟩

/-- **Looking ahead is invisible.**  Whatever a reader does, in any order, it
shows the entries of the list that reading on gives.  The entries are the tokens
of the text and then its end, over and over.  The table holds the distinct
names among the tokens seen so far, in the order of the text. -/
theorem run_eq_plain (text : String) (steps : List Step) :
    ((Marked.start text).run steps).1 = (Position.run (plain text) {} steps).1 ∧
      ((Marked.start text).run steps).2.reader.here =
        (Place.start text).beyond (Position.run (plain text) {} steps).2.here ∧
      ((Marked.start text).run steps).2.reader.names.texts =
        (identifiers ((List.range (Position.run (plain text) {} steps).2.seen).map
          fun k => (plain text k).token)).eraseDups ∧
      ∀ k, (plain text k).token =
        (Scan.tokens text).withEnd.getD k ⟨.endOfFile, (Scan.tokens text).endLine⟩ := by
  have hstart : (Marked.start text).Stands text {} := ⟨rfl, rfl, Nat.le_refl 0, nofun⟩
  obtain ⟨hshown, hstands⟩ := hstart.run steps
  refine ⟨hshown, ?_, ?_, ?_⟩
  · rw [hstands.reader]
  · rw [hstands.reader, firstNames, Names.texts_ofTokens, firstTokens]
    simp only [plain_eq]
  · intro k
    rw [plain_eq, Scan.tokens, Scan.getD_withEnd]

end Reader

end MiniC
