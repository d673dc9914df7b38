import Abacus.Proofs.Token.Scanning

/-!
# Tilings

A text that can be divided into tokens is tiled by their lexemes: before each of them there may be
blanks, and so there may be at the end.  As a lexeme is as long as it can be, and as its first
character says of which kind it is, there is but one way to tile a text.  What tiles a text up to a
fault is just as unique.

## Main definitions

* `Piece` — the lexeme of a token, with the blanks before it.
* `written` — the characters of pieces.
* `locate`, `startOf` — their tokens, and where the lexeme with a given number starts.
* `Tiles`, `IsTiling` — pieces that tile characters, up to given ones or to the end.

## Main results

* `Tiles.inputAt_eq_prepend` — tiled characters are scanned as the tokens of their pieces.
* `exists_tiles` — all characters are tiled up to the end or up to a fault.
* `IsTiling.unique` — **there is one tiling at most.**
-/

namespace Abacus

/-- The lexeme of a token, with the blanks before it. -/
structure Piece where
  blanks : List Char
  lexeme : List Char
  token : Token

/-- The characters of pieces. -/
def written (pieces : List Piece) : List Char :=
  pieces.flatMap fun piece => piece.blanks ++ piece.lexeme

@[simp] theorem written_nil : written [] = [] := rfl

@[simp] theorem written_cons (piece : Piece) (pieces : List Piece) :
    written (piece :: pieces) = piece.blanks ++ piece.lexeme ++ written pieces := rfl

/-- The tokens of pieces, the first of which begins at `offset`, each where its lexeme starts. -/
def locate (offset : Nat) : List Piece → List Located
  | [] => []
  | piece :: pieces =>
    ⟨piece.token, offset + byteLength piece.blanks⟩
      :: locate (offset + byteLength piece.blanks + byteLength piece.lexeme) pieces

/-- The number of bytes before the lexeme of the piece with the given number, or of all up to the
end of `last` if there are not so many pieces. -/
def startOf (last : List Char) : List Piece → Nat → Nat
  | [], _ => byteLength last
  | piece :: _, 0 => byteLength piece.blanks
  | piece :: pieces, number + 1 =>
    byteLength piece.blanks + byteLength piece.lexeme + startOf last pieces number

/-- `Tiles cs pieces rest` says that the pieces tile the characters `cs` up to `rest`. -/
inductive Tiles : List Char → List Piece → List Char → Prop
  | nil (rest : List Char) : Tiles rest [] rest
  | cons {blanks lexeme cs rest : List Char} {token : Token} {pieces : List Piece}
      (hblanks : IsBlanks blanks) (hlexeme : IsLexeme cs lexeme token)
      (h : Tiles cs pieces rest) :
      Tiles (blanks ++ (lexeme ++ cs)) (⟨blanks, lexeme, token⟩ :: pieces) rest

/-- The pieces tile the characters up to the blanks at their end. -/
structure IsTiling (cs : List Char) (pieces : List Piece) (last : List Char) : Prop where
  tiles : Tiles cs pieces last
  blanks : IsBlanks last

variable {cs rest last : List Char} {pieces : List Piece}

/-! ### The tokens of a tiling -/

theorem map_token_locate (pieces : List Piece) : ∀ offset,
    (locate offset pieces).map Located.token = pieces.map Piece.token := by
  induction pieces with
  | nil => intro offset; rfl
  | cons piece pieces ih => intro offset; rw [locate, List.map_cons, List.map_cons, ih]

/-- Before its lexeme stand the pieces before a piece, and its blanks. -/
theorem locate_append_cons (before : List Piece) (piece : Piece) (after : List Piece) : ∀ offset,
    ∃ later, locate offset (before ++ piece :: after)
      = locate offset before
        ++ ⟨piece.token, offset + byteLength (written before ++ piece.blanks)⟩ :: later := by
  -- A piece moves all that follow it by the length of its blanks and its lexeme.
  induction before with
  | nil => intro offset; exact ⟨_, rfl⟩
  | cons first before ih =>
    intro offset
    obtain ⟨later, hlater⟩ :=
      ih (offset + byteLength first.blanks + byteLength first.lexeme)
    refine ⟨later, ?_⟩
    rw [List.cons_append, locate, hlater, locate, written_cons]
    simp only [byteLength_append, List.cons_append, Nat.add_assoc]

theorem length_locate (pieces : List Piece) : ∀ offset,
    (locate offset pieces).length = pieces.length := by
  induction pieces with
  | nil => intro offset; rfl
  | cons piece pieces ih => intro offset; rw [locate, List.length_cons, List.length_cons, ih]

theorem startOf_append_cons (last : List Char) (before : List Piece) (piece : Piece)
    (after : List Piece) : startOf last (before ++ piece :: after) before.length
      = byteLength (written before ++ piece.blanks) := by
  induction before with
  | nil => rfl
  | cons first before ih =>
    rw [List.cons_append, List.length_cons, startOf, ih, written_cons]
    simp only [byteLength_append, Nat.add_assoc]

theorem startOf_length (last : List Char) (pieces : List Piece) :
    startOf last pieces pieces.length = byteLength (written pieces ++ last) := by
  induction pieces with
  | nil => rfl
  | cons first pieces ih =>
    rw [List.length_cons, startOf, ih, written_cons]
    simp only [byteLength_append, Nat.add_assoc]

theorem Tiles.eq_append (h : Tiles cs pieces rest) : cs = written pieces ++ rest := by
  induction h with
  | nil rest => rfl
  | cons _ _ _ ih => rw [written_cons, List.append_assoc, List.append_assoc, ← ih]

/-- Pieces tile a text also if it is cut off somewhere behind them. -/
theorem Tiles.of_append {more : List Char} (h : Tiles cs pieces (rest ++ more)) :
    Tiles (written pieces ++ rest) pieces rest := by
  generalize hall : rest ++ more = all at h
  induction h with
  | nil => exact .nil rest
  | @cons blanks lexeme cs all token pieces hblanks hlexeme h ih =>
    have hcut : IsLexeme (written pieces ++ rest ++ more) lexeme token := by
      rw [List.append_assoc, hall, ← h.eq_append]
      exact hlexeme
    rw [written_cons, List.append_assoc, List.append_assoc]
    exact .cons hblanks hcut.of_append (ih hall)

/-- Every piece of a tiling is the lexeme of its token. -/
theorem Tiles.exists_isLexeme (h : Tiles cs pieces rest) :
    ∀ piece ∈ pieces, IsBlanks piece.blanks ∧
      ∃ behind, IsLexeme behind piece.lexeme piece.token := by
  induction h with
  | nil => intro piece hpiece; exact nomatch hpiece
  | @cons blanks lexeme cs rest token pieces hblanks hlexeme _ ih =>
    intro piece hpiece
    rcases List.mem_cons.mp hpiece with rfl | hpiece
    · exact ⟨hblanks, cs, hlexeme⟩
    · exact ih piece hpiece

theorem Tiles.isEof_eq_false (h : Tiles cs pieces rest) :
    ∀ piece ∈ pieces, piece.token.isEof = false := by
  intro piece hpiece
  obtain ⟨-, behind, hlexeme⟩ := h.exists_isLexeme piece hpiece
  exact hlexeme.isEof_eq_false

/-- **Tiled characters are scanned as the tokens of their pieces**, and then what is behind is. -/
theorem Tiles.inputAt_eq_prepend (h : Tiles cs pieces rest) : ∀ offset,
    inputAt offset cs
      = (inputAt (offset + byteLength (written pieces)) rest).prepend (locate offset pieces) := by
  induction h with
  | nil rest => intro offset; rfl
  | @cons blanks lexeme cs rest token pieces hblanks hlexeme _ ih =>
    intro offset
    rw [inputAt_of_isLexeme offset hblanks hlexeme, ih, written_cons, byteLength_append,
      byteLength_append, ← Nat.add_assoc, ← Nat.add_assoc]
    rfl

/-- If no token comes behind, these are all. -/
theorem Tiles.inputAt_eq (h : Tiles cs pieces rest) {stop : Stop} (offset : Nat)
    (hrest : inputAt (offset + byteLength (written pieces)) rest = ⟨[], stop⟩) :
    inputAt offset cs = ⟨locate offset pieces, stop⟩ := by
  rw [h.inputAt_eq_prepend, hrest, Input.prepend, List.append_nil]

theorem IsTiling.inputAt_eq (h : IsTiling cs pieces last) (offset : Nat) :
    inputAt offset cs = ⟨locate offset pieces, .ending (offset + byteLength cs)⟩ := by
  have hlast := inputAt_of_blanks (offset + byteLength (written pieces)) h.blanks
  rw [Nat.add_assoc, ← byteLength_append, ← h.tiles.eq_append] at hlast
  exact h.tiles.inputAt_eq offset hlast

theorem byteLength_pos_of_ne_nil (h : cs ≠ []) : 0 < byteLength cs := by
  cases cs with
  | nil => exact absurd rfl h
  | cons c cs => exact Nat.add_pos_left c.utf8Size_pos _

/-- Every lexeme starts before the end of all of them. -/
theorem Tiles.startOf_lt (h : Tiles cs pieces rest) : ∀ {number}, number < pieces.length →
    startOf last pieces number < byteLength (written pieces ++ last) := by
  induction h with
  | nil => intro number hnumber; exact absurd hnumber (Nat.not_lt_zero _)
  | @cons blanks lexeme cs rest token pieces _ hlexeme _ ih =>
    intro number hnumber
    obtain ⟨c, run, rfl, -⟩ := hlexeme.exists_cons
    have hpos : 0 < byteLength (c :: run) := byteLength_pos_of_ne_nil (List.cons_ne_nil c run)
    rw [written_cons, List.append_assoc, List.append_assoc, byteLength_append, byteLength_append]
    -- The first piece starts behind its blanks, and its lexeme is not empty.
    cases number with
    | zero => exact Nat.lt_add_of_pos_right (Nat.add_pos_left hpos _)
    | succ number =>
      have hlt := ih (Nat.lt_of_succ_lt_succ hnumber)
      simp only [startOf]
      omega

/-! ### Existence -/

/-- What is no blank begins a lexeme or is a fault. -/
theorem exists_isLexeme_or_isFault {c : Char} (hc : isBlank c = false) (cs : List Char) :
    (∃ lexeme rest token, c :: cs = lexeme ++ rest ∧ IsLexeme rest lexeme token) ∨
      ∃ fault, IsFault (c :: cs) fault := by
  -- The first character decides which kind of lexeme it is, in the order in which the scanner asks.
  cases hdigit : c.isDigit with
  | true =>
    obtain ⟨run, rest, rfl, hrun, hrest⟩ := exists_run isNumberPart cs
    have hparts : ∀ d ∈ c :: run, isNumberPart d = true :=
      List.forall_mem_cons.mpr ⟨by simp [isNumberPart, isNamePart, hdigit], hrun⟩
    cases hvalue : Number.ofLiteralChars? (c :: run) with
    | some value => exact .inl ⟨c :: run, rest, _, rfl, .number hdigit hparts hrest hvalue⟩
    | none => exact .inr ⟨_, .malformed hdigit hparts hrest hvalue⟩
  | false =>
    cases hname : startsName c with
    | true =>
      obtain ⟨run, rest, rfl, hrun, hrest⟩ := exists_run isNamePart cs
      have hparts : ∀ d ∈ c :: run, isNamePart d = true :=
        List.forall_mem_cons.mpr ⟨by simp [isNamePart, hname], hrun⟩
      exact .inl ⟨c :: run, rest, _, rfl, .name hname hparts hrest⟩
    | false =>
      cases hsymbol : Token.ofSymbol? c with
      | some token => exact .inl ⟨[c], cs, token, rfl, .symbol hsymbol⟩
      | none => exact .inr ⟨_, .unexpected hc hdigit hname hsymbol⟩

/-- **All characters are tiled up to the end or up to a fault.** -/
theorem exists_tiles (cs : List Char) :
    ∃ pieces blanks rest, Tiles cs pieces (blanks ++ rest) ∧ IsBlanks blanks ∧
      (rest = [] ∨ ∃ fault, IsFault rest fault) := by
  -- Every piece takes at least one character.
  induction hn : cs.length using Nat.strongRecOn generalizing cs with
  | ind n ih =>
    obtain ⟨blanks, after, rfl, hblanks, hafter⟩ := exists_run isBlank cs
    cases after with
    | nil => exact ⟨[], blanks, [], .nil _, hblanks, .inl rfl⟩
    | cons c cs =>
      rcases exists_isLexeme_or_isFault (hafter c rfl) cs with
        ⟨lexeme, behind, token, hcs, hlexeme⟩ | hfault
      · obtain ⟨d, run, rfl, -⟩ := hlexeme.exists_cons
        have hlt : behind.length < n := by
          rw [← hn, hcs]
          simp only [List.length_append, List.length_cons]
          omega
        obtain ⟨pieces, blanks', rest, htiles, hrest⟩ := ih _ hlt behind rfl
        exact ⟨⟨blanks, d :: run, token⟩ :: pieces, blanks', rest,
          hcs ▸ .cons hblanks hlexeme htiles, hrest⟩
      · exact ⟨[], blanks, c :: cs, .nil _, hblanks, .inr hfault⟩

/-! ### Uniqueness -/

/-- Blanks before what is none are as many as there are. -/
theorem eq_of_blanks_append_eq {blanks blanks' cs cs' : List Char} (hblanks : IsBlanks blanks)
    (hcs : StopsRun isBlank cs) (hblanks' : IsBlanks blanks') (hcs' : StopsRun isBlank cs')
    (h : blanks ++ cs = blanks' ++ cs') : blanks = blanks' ∧ cs = cs' := by
  have htake := takeWhile_append_of_stopsRun hblanks hcs
  rw [h, takeWhile_append_of_stopsRun hblanks' hcs'] at htake
  subst htake
  exact ⟨rfl, List.append_cancel_left h⟩

/-- The lexeme that characters begin with is determined by them, and so is its token. -/
theorem IsLexeme.unique {lexeme lexeme' rest rest' : List Char} {token token' : Token}
    (h : IsLexeme rest lexeme token) (h' : IsLexeme rest' lexeme' token')
    (heq : lexeme ++ rest = lexeme' ++ rest') :
    lexeme = lexeme' ∧ rest = rest' ∧ token = token' := by
  -- The scan of these characters is one, and it tells the token and what is left.
  have hscan : (⟨[], lexeme ++ rest, 0⟩ : Cursor).scanHere = _ :=
    Cursor.scanHere_of_isLexeme h rfl
  have hscan' : (⟨[], lexeme ++ rest, 0⟩ : Cursor).scanHere = _ :=
    Cursor.scanHere_of_isLexeme h' heq
  have hboth := hscan.symm.trans hscan'
  simp only [Prod.mk.injEq, Except.ok.injEq, Located.mk.injEq, Cursor.mk.injEq] at hboth
  obtain ⟨⟨htoken, -⟩, -, hrest, -⟩ := hboth
  subst hrest
  exact ⟨List.append_cancel_right heq, rfl, htoken⟩

/-- A lexeme stands nowhere in blanks. -/
theorem not_isBlanks_append {blanks lexeme cs : List Char} {token : Token}
    (h : IsLexeme cs lexeme token) : ¬ IsBlanks (blanks ++ (lexeme ++ cs)) := by
  obtain ⟨c, run, rfl, hc⟩ := h.exists_cons
  intro hblanks
  have hblank : isBlank c = true := hblanks c (by simp)
  exact Bool.false_ne_true (hc.symm.trans hblank)

theorem Tiles.unique (h : Tiles cs pieces last) : ∀ {pieces' : List Piece} {last' : List Char},
    IsBlanks last → Tiles cs pieces' last' → IsBlanks last' → pieces = pieces' ∧ last = last' := by
  induction h with
  | nil last =>
    intro pieces' last' hlast h' _
    cases h' with
    | nil => exact ⟨rfl, rfl⟩
    | cons _ hlexeme' _ => exact absurd hlast (not_isBlanks_append hlexeme')
  | @cons blanks lexeme cs last token pieces hblanks hlexeme _ ih =>
    intro pieces' last' hlast h' hlast'
    -- The second tiling is of the same characters, which have to be named before its cases.
    generalize hall : blanks ++ (lexeme ++ cs) = all at h'
    cases h' with
    | nil => exact absurd (hall ▸ hlast') (not_isBlanks_append hlexeme)
    | cons hblanks' hlexeme' h' =>
      obtain ⟨rfl, hbehind⟩ :=
        eq_of_blanks_append_eq hblanks hlexeme.stopsRun hblanks' hlexeme'.stopsRun hall
      obtain ⟨rfl, rfl, rfl⟩ := hlexeme.unique hlexeme' hbehind
      obtain ⟨rfl, rfl⟩ := ih hlast h' hlast'
      exact ⟨rfl, rfl⟩

/-- **There is one tiling at most.** -/
theorem IsTiling.unique (h : IsTiling cs pieces last) {pieces' : List Piece} {last' : List Char}
    (h' : IsTiling cs pieces' last') : pieces = pieces' ∧ last = last' :=
  h.tiles.unique h.blanks h'.tiles h'.blanks

end Abacus
