import Abacus.Expr.Parser
import Abacus.Proofs.Grammar.Completeness
import Abacus.Proofs.Grammar.Soundness

/-!
# The accepted sequences of tokens

A sequence of tokens is read as an expression exactly if it derives one within the limits; past a
limit it is too deep.  Since reading is a function, and every derivation is within *some* limit, a
sequence has one tree at most, and one nesting.

## Main results

* `parseWithin_eq_ok_iff` — what is accepted within a limit.
* `eq_of_derives`, `nesting_eq_of_derives` — **the grammar is unambiguous.**
* `parseTokens_accepts_grammar` — **the accepted lists of tokens**, with their trees.
-/

namespace Abacus

namespace Input

/-- The tokens of a list count up to the first `eof`. -/
theorem map_token_ofTokens (ts : List Token) : ∀ start : Nat,
    (ofTokens start ts).tokens.map Located.token = ts.takeWhile fun token => !token.isEof := by
  induction ts with
  | nil => intro start; rfl
  | cons token ts ih =>
    intro start
    cases htoken : token.isEof with
    | true => simp [ofTokens, ofNext, htoken]
    | false => simp [ofTokens, ofNext, htoken, ih]

/-- The end stands behind the tokens that count. -/
theorem stop_ofTokens_eq (ts : List Token) : ∀ start : Nat,
    (ofTokens start ts).stop = .ending (start + (ofTokens start ts).tokens.length) := by
  induction ts with
  | nil => intro start; rfl
  | cons token ts ih =>
    intro start
    cases htoken : token.isEof with
    | true => simp [ofTokens, ofNext, htoken]
    | false => simp [ofTokens, ofNext, htoken, ih]; omega

theorem stop_ofTokens (ts : List Token) (start : Nat) :
    ∃ position, (ofTokens start ts).stop = .ending position :=
  ⟨_, stop_ofTokens_eq ts start⟩

/-- The tokens of a list stand where they are counted. -/
theorem position_of_tokens_ofTokens {ts : List Token} :
    ∀ {start : Nat} {before after : List Located} {next : Located},
      (ofTokens start ts).tokens = before ++ next :: after →
      next.position = start + before.length := by
  -- The tokens of a list are numbered, and none is read behind its end.
  induction ts with
  | nil => intro start before after next h; simp [ofTokens] at h
  | cons token ts ih =>
    intro start before after next h
    cases htoken : token.isEof with
    | true => simp [ofTokens, ofNext, htoken] at h
    | false =>
      simp only [ofTokens, ofNext, htoken] at h
      cases before with
      | nil => cases h; rfl
      | cons first before =>
        have hposition := ih (List.cons.inj h).2
        rw [hposition, List.length_cons]
        omega

variable {limit position : Nat} {input : Input}

/-- Complete tokens that are derived within the limits are read as their tree. -/
theorem parseWithin_of_derives (hstop : input.stop = .ending position) {e : Expr} {n : Nat}
    (h : Derives .expression (input.tokens.map Located.token) e n) (hn : n ≤ limit)
    (he : e.depth ≤ limit) : input.parseWithin limit = .ok e := by
  have hends : ∀ level, EndsChain input.stop level [] := fun _ => ⟨position, hstop⟩
  obtain ⟨hlt, hexpression⟩ :=
    reaches_of_derives input.stop h limit input.tokens input.tokens [] hn he rfl (by simp) (hends _)
  rw [extend_of_endsChain (hends _)] at hexpression
  rw [parseWithin, hexpression, hstop]
  rfl

/-- Only complete tokens that are derived within the limits are read. -/
theorem derives_of_parseWithin (hpos : 0 < limit) {e : Expr}
    (h : input.parseWithin limit = .ok e) :
    ∃ n, Derives .expression (input.tokens.map Located.token) e n ∧ n ≤ limit ∧
      e.depth ≤ limit := by
  obtain ⟨parsed, hparsed, hcomplete⟩ := Except.bind_eq_ok_iff.mp h
  obtain ⟨lts, n, htokens, hderives, hn, hdepth, hlimit⟩ := isDerived_of_expression hpos hparsed
  unfold Parsed.complete at hcomplete
  split at hcomplete
  · next hrest =>
    obtain ⟨_, -, hok⟩ := resolve_eq_ok hcomplete
    obtain rfl := Except.ok.inj hok
    -- Nothing is left, so the tokens read are all that there are.
    rw [hrest, List.append_nil] at htokens
    exact ⟨n, htokens ▸ hderives, hn, hdepth ▸ hlimit⟩
  · exact nomatch hcomplete

/-- Only what does not stop at a fault is read. -/
theorem exists_ending_of_parseWithin {e : Expr} (h : input.parseWithin limit = .ok e) :
    ∃ position, input.stop = .ending position := by
  obtain ⟨parsed, -, hcomplete⟩ := Except.bind_eq_ok_iff.mp h
  unfold Parsed.complete at hcomplete
  split at hcomplete
  · obtain ⟨position, hstop, -⟩ := resolve_eq_ok hcomplete
    exact ⟨position, hstop⟩
  · exact nomatch hcomplete

/-- **What is accepted within a limit.** -/
theorem parseWithin_eq_ok_iff (hpos : 0 < limit) (hstop : input.stop = .ending position)
    {e : Expr} :
    input.parseWithin limit = .ok e ↔
      ∃ n, Derives .expression (input.tokens.map Located.token) e n ∧ n ≤ limit ∧
        e.depth ≤ limit := by
  constructor
  · exact derives_of_parseWithin hpos
  · rintro ⟨n, h, hn, he⟩
    exact parseWithin_of_derives hstop h hn he

theorem parseWithin_tooDeep (hpos : 0 < limit) (hstop : input.stop = .ending position) {e : Expr}
    {n : Nat} (h : Derives .expression (input.tokens.map Located.token) e n)
    (hpast : limit < n ∨ limit < e.depth) :
    ∃ position, input.parseWithin limit = .error (.tooDeep limit position) := by
  obtain ⟨deep, hrule⟩ :=
    tooDeep_of_derives hpos h limit input.tokens input.tokens [] hpast rfl (by simp)
      fun _ => ⟨position, hstop⟩
  rw [Level.rule] at hrule
  refine ⟨deep, ?_⟩
  rw [parseWithin, hrule]
  rfl

end Input

/-- **The grammar is unambiguous.**  A limit that is wide enough for both derivations makes both
trees the one that is read. -/
theorem eq_of_derives {ts : List Token} {e e' : Expr} {n n' : Nat}
    (h : Derives .expression ts e n) (h' : Derives .expression ts e' n') : e = e' := by
  -- Positions play no part in what is read, so any will do.
  let input : Input := ⟨ts.map (⟨·, 0⟩), .ending 0⟩
  have hts : input.tokens.map Located.token = ts := by simp [input, Function.comp_def]
  let limit := n + n' + e.depth + e'.depth
  have hread : input.parseWithin limit = .ok e :=
    Input.parseWithin_of_derives rfl (hts.symm ▸ h) (by omega) (by omega)
  have hread' : input.parseWithin limit = .ok e' :=
    Input.parseWithin_of_derives rfl (hts.symm ▸ h') (by omega) (by omega)
  exact Except.ok.inj (hread.symm.trans hread')

/-- Room for the nesting of one derivation is room for that of any other: with less, what the first
one makes readable would be too deep by the second. -/
theorem nesting_le_of_derives {ts : List Token} {e e' : Expr} {n n' : Nat}
    (h : Derives .expression ts e n) (h' : Derives .expression ts e' n') : n ≤ n' := by
  refine Nat.le_of_not_lt fun hlt => ?_
  let lts : List Located := ts.map (⟨·, 0⟩)
  have hts : lts.map Located.token = ts := by simp [lts, Function.comp_def]
  have hends : ∀ level, EndsChain (.ending 0) level [] := fun _ => ⟨0, rfl⟩
  obtain ⟨_, hread⟩ := reaches_of_derives (.ending 0) h' n' lts lts [] (Nat.le_refl _)
    (Nat.le_refl _) hts (List.append_nil _).symm (hends _)
  rw [extend_of_endsChain (hends _)] at hread
  obtain ⟨position, hdeep⟩ := tooDeep_of_derives e'.depth_pos h n' lts lts []
    (.inl hlt) hts (List.append_nil _).symm fun _ => hends _
  exact nomatch hread.symm.trans hdeep

theorem nesting_eq_of_derives {ts : List Token} {e e' : Expr} {n n' : Nat}
    (h : Derives .expression ts e n) (h' : Derives .expression ts e' n') : n = n' :=
  Nat.le_antisymm (nesting_le_of_derives h h') (nesting_le_of_derives h' h)

/-- **The accepted lists of tokens.**  A list of tokens is accepted with a tree exactly if what
stands before its first `eof` derives that tree, with no more than `maxDepth` groups and minus signs
around a factor and a depth of at most `maxDepth`; it derives one tree at most; and where it derives
one past a limit, it is too deep. -/
theorem parseTokens_accepts_grammar (tokens : List Token) :
    let ts := tokens.takeWhile fun token => !token.isEof
    (∀ e : Expr, Expr.parseTokens tokens = .ok e ↔
      ∃ n, Derives .expression ts e n ∧ n ≤ maxDepth ∧ e.depth ≤ maxDepth) ∧
    (∀ (e e' : Expr) (n n' : Nat), Derives .expression ts e n → Derives .expression ts e' n' →
      e = e') ∧
    (∀ (e : Expr) (n : Nat), Derives .expression ts e n → maxDepth < n ∨ maxDepth < e.depth →
      ∃ position, Expr.parseTokens tokens
        = .error (.parse (.nestingTooDeep maxDepth position))) := by
  intro ts
  have hpos : 0 < maxDepth := by decide
  have hts : (Input.ofTokens 0 tokens).tokens.map Located.token = ts :=
    Input.map_token_ofTokens tokens 0
  obtain ⟨position, hstop⟩ := Input.stop_ofTokens tokens 0
  -- A list stops at an end and never at a fault, so limits are all that is left to refuse a
  -- derivation.
  refine ⟨fun e => ?_, fun e e' n n' h h' => eq_of_derives h h', fun e n h hpast => ?_⟩
  · rw [← hts]
    exact Input.parseWithin_eq_ok_iff hpos hstop
  · exact Input.parseWithin_tooDeep hpos hstop (hts.symm ▸ h) hpast

/-- What stands behind the first `eof` does not matter, and a minus sign before a group stands for a
product. -/
theorem parseTokens_accepts_negated_group :
    let sum : Expr := .operation (.constant (.integer 1)) .add (.reference "x")
    let product : Expr := .operation (.constant (.integer (-1))) .multiply sum
    let ts : List Token :=
      [.minus, .openParen, .number (.integer 1), .plus, .identifier "x", .closeParen]
    Derives .expression ts product 2 ∧ Expr.parseTokens (ts ++ [.eof, .plus]) = .ok product ∧
      ∀ e, Derives .expression ts e 2 → e = product := by
  intro sum product ts
  have hsum : Derives .expression [.number (.integer 1), .plus, .identifier "x"] sum 0 :=
    Derives.sum (.inl rfl) (.ofTerm (.ofFactor (.number _))) (.ofFactor (.name "x"))
  have hproduct : Derives .expression ts product 2 :=
    .ofTerm (.ofFactor (.minus (.group hsum)))
  obtain ⟨hiff, hunique, -⟩ := parseTokens_accepts_grammar (ts ++ [.eof, .plus])
  exact ⟨hproduct, (hiff product).mpr ⟨2, hproduct, by decide, by decide⟩,
    fun e h => hunique e product 2 2 h hproduct⟩

end Abacus
