/-
  Statechart.Proofs.Lossless — reading ends, and no token is lost or doubled on the way,
  however the text is repaired.

  `Account` compares what stands in the tree with what was to be read: the tokens below
  the rules begun so far, less those that were put in, and then the tokens ahead are the
  tokens of the text, with the end of the text behind them as often as it was read. Every
  move keeps it (`Moves.account`). A token that was put in is told from the others by
  `keep`; where nothing is put in, because there is no complaint, none need be.

  Proved (`reading_ends_and_loses_nothing`): a run within its bound comes to the end of
  the first rule, and the tokens in the tree are the first tokens of the text, each once
  and in order.
-/

import Statechart.Proofs.Halting
import Statechart.Proofs.LongestMatch

namespace Statechart

/-! ## Tokens below the rules begun -/

theorem Tree.tokensOf_concat (cs : List Tree) (c : Tree) : tokensOf (cs ++ [c]) = tokensOf cs ++ c.tokens := by
  rw [tokensOf_append, tokensOf, tokensOf, List.append_nil]

namespace Parser

/-- The tokens below some rules begun, the one begun last first. -/
def passed : List Frame → List Token
  | [] => []
  | f :: fs => passed fs ++ Tree.tokensOf f.children

/-- What stands in the tree, less what was put in, and what is ahead are the tokens of the text. -/
structure Account (keep : Token → Bool) (l : Lexed) (p : Parser) : Prop where
  ending : p.ending = l.ending
  tokens : ∃ m, (0 < m → p.ahead = []) ∧
    (passed (p.frame :: p.callers)).filter keep ++ p.ahead = l.tokens ++ List.replicate m l.ending

variable {keep : Token → Bool} {l : Lexed} {p q : Parser}

/-- Only the tokens below the rules and those ahead count. -/
theorem Account.congr (h : Account keep l p) (hp : passed (q.frame :: q.callers) = passed (p.frame :: p.callers))
    (ha : q.ahead = p.ahead) (he : q.ending = p.ending) : Account keep l q := by
  refine ⟨he.trans h.ending, ?_⟩
  rw [hp, ha]
  exact h.tokens

theorem children_consume (p : Parser) : p.consume.frame.children =
    p.frame.children ++ [if p.recovering then .fault p.view else .leaf p.view] := by
  unfold consume advance
  split <;> rfl

theorem passed_consume (p : Parser) :
    passed (p.consume.frame :: p.consume.callers) = passed (p.frame :: p.callers) ++ [p.view] := by
  have hview : Tree.tokens (if p.recovering then .fault p.view else .leaf p.view) = [p.view] := by
    split <;> rfl
  rw [passed, passed, (Repairs.pass .nothing).keeps.callers, children_consume, Tree.tokensOf_concat, hview,
    List.append_assoc]

/-- The token in view goes into the tree; the end of the text does so as often as it is read. -/
theorem Account.consume (h : Account keep l p) (hkeep : ∀ t ∈ l.tokens, keep t = true) (hend : keep l.ending = true) :
    Account keep l p.consume := by
  obtain ⟨m, hm, htokens⟩ := h.tokens
  refine ⟨(Repairs.pass .nothing).keeps.ending.trans h.ending, ?_⟩
  rw [passed_consume, ahead_consume, List.filter_append]
  cases ha : p.ahead with
  | nil =>
    have hview : p.view = l.ending := by rw [view, ha, List.headD_nil, h.ending]
    rw [ha, List.append_nil] at htokens
    refine ⟨m + 1, fun _ => rfl, ?_⟩
    rw [hview, htokens, List.replicate_succ']
    simp [hend]
  | cons t ts =>
    have hzero : m = 0 := by
      by_cases h0 : 0 < m
      · rw [hm h0] at ha
        cases ha
      · omega
    subst hzero
    rw [ha, List.replicate_zero, List.append_nil] at htokens
    have hview : p.view = t := by rw [view, ha, List.headD_cons]
    have ht : keep t = true := hkeep t (by rw [← htokens]; simp)
    refine ⟨0, fun h0 => absurd h0 (Nat.lt_irrefl 0), ?_⟩
    simpa [hview, ht] using htokens

theorem Notes.account (h : Notes p q) (hp : Account keep l p) : Account keep l q :=
  hp.congr (by rw [passed, passed, h.children, h.callers]) h.ahead h.ending

theorem Repairs.account (h : Repairs p q) (hkeep : ∀ t ∈ l.tokens, keep t = true) (hend : keep l.ending = true)
    (hput : ∀ (o : Parser) ks, keep (o.missing ks) = false) (hp : Account keep l p) : Account keep l q := by
  induction h with
  | nothing => exact hp
  | note _ hn ih => exact hn.account ih
  | pass _ ih => exact ih.consume hkeep hend
  | @putIn q o ks _ ih =>
    refine ⟨ih.ending, ?_⟩
    have hpassed : (passed ((q.add (.fault (o.missing ks))).frame :: q.callers)).filter keep =
        (passed (q.frame :: q.callers)).filter keep := by
      show (passed q.callers ++ Tree.tokensOf (q.frame.children ++ [.fault (o.missing ks)])).filter keep = _
      rw [Tree.tokensOf_concat, ← List.append_assoc, List.filter_append]
      simp [Tree.tokens, hput, passed]
    show ∃ m, (0 < m → q.ahead = []) ∧ (passed ((q.add _).frame :: q.callers)).filter keep ++ q.ahead = _
    rw [hpassed]
    exact ih.tokens

/-- Either no token that is put in counts, or none is put in since there is no complaint. -/
def Puts (keep : Token → Bool) (p q : Parser) : Prop :=
  (∀ (o : Parser) ks, keep (o.missing ks) = false) ∨ p.Candid ∧ q.complaints = []

theorem Mends.account (h : Mends p q) (hkeep : ∀ t ∈ l.tokens, keep t = true) (hend : keep l.ending = true)
    (hput : Puts keep p q) (hp : Account keep l p) : Account keep l q := by
  rcases hput with hput | ⟨hcandid, hcomplaints⟩
  · exact h.repairs.account hkeep hend hput hp
  · exact absurd hcomplaints (h.complains hcandid)

theorem Moves.account (h : Moves p q) (hkeep : ∀ t ∈ l.tokens, keep t = true) (hend : keep l.ending = true)
    (hput : Puts keep p q) (hp : Account keep l p) : Account keep l q := by
  cases h with
  | @leave c cs ht hc =>
    refine hp.congr ?_ rfl rfl
    show passed cs ++ Tree.tokensOf (c.children ++ [p.close]) = _
    rw [Tree.tokensOf_concat, hc, passed, passed, List.append_assoc]
    rfl
  | @read place ks slot rest ht hk =>
    have hread := ((p.notes_settle.account hp).consume hkeep hend)
    exact ((notes_remember _ slot p.view).account hread).congr rfl rfl rfl
  | mend ht hk hm => exact (hm.account hkeep hend hput hp).congr rfl rfl rfl
  | enter ht hc =>
    refine hp.congr ?_ rfl rfl
    show passed (_ :: p.callers) ++ [] = _
    rw [List.append_nil]
    rfl
  | opens ht hs ho =>
    rcases hs with rfl | ⟨-, hm⟩
    · exact hp.congr rfl rfl rfl
    · exact (hm.account hkeep hend hput hp).congr rfl rfl rfl
  | giveUp ht hk hm => exact (hm.account hkeep hend hput hp).congr rfl rfl rfl
  | wrap ht hk hl =>
    refine hp.congr ?_ rfl rfl
    show passed p.callers ++ (Tree.tokensOf p.frame.children ++ []) = _
    rw [List.append_nil]
    rfl

theorem start_account (keep : Token → Bool) (r : Rule) (l : Lexed) : Account keep l (start r l) :=
  ⟨rfl, 0, fun h => absurd h (Nat.lt_irrefl 0), by simp [start, passed, Tree.tokensOf]⟩

/-- Whatever is repaired, a run that starts with all tokens ahead accounts for each. -/
theorem run_account (keep : Token → Bool) (r : Rule) (hkeep : ∀ t ∈ l.tokens, keep t = true)
    (hend : keep l.ending = true)
    (hput : ∀ (o : Parser) ks, keep (o.missing ks) = false) (n : Nat) : Account keep l (run n (start r l)) :=
  run_induction (fun _ _ hp hm => hm.account hkeep hend (Or.inl hput) hp) (start_account keep r l) n

/-- The tokens below the first rule, once it is read. -/
theorem tokens_close (h : p.finished = true) : p.close.tokens = passed (p.frame :: p.callers) := by
  simp only [finished, Bool.and_eq_true, List.isEmpty_iff] at h
  rw [h.1]
  rfl

end Parser

/-! ## Tokens of a text -/

/-- The token stands nowhere in the text: it was put in because it was missing. -/
def Token.conjured (t : Token) : Bool := t.start = -1

theorem conjured_missing (p : Parser) (ks : List Kind) : (p.missing ks).conjured = true := rfl

theorem not_conjured_of_lex {text : String} {t : Token} (ht : t ∈ (lex text).tokens) : t.conjured = false := by
  obtain ⟨u, v, -, hmarks, -⟩ := (Lexer.pieces_cutUp text.toList).marks ht
  rw [Token.conjured, hmarks.start]
  simp

theorem not_conjured_ending (text : String) : (lex text).ending.conjured = false := by
  rw [Token.conjured]
  simp [lex]

theorem kind_ne_of_lex {text : String} {t : Token} (ht : t ∈ (lex text).tokens) : t.kind ≠ .endOfText := by
  intro hk
  have hmatch := lex_matches ht
  rw [hk] at hmatch
  cases hmatch

theorem account_of_text (r : Rule) (text : String) (n : Nat) :
    Parser.Account (fun t => !t.conjured) (lex text) (Parser.run n (Parser.start r (lex text))) := by
  refine Parser.run_account _ r (fun t ht => ?_) ?_ (fun o ks => ?_) n
  · rw [not_conjured_of_lex ht, Bool.not_false]
  · rw [not_conjured_ending, Bool.not_false]
  · rw [conjured_missing, Bool.not_true]

/-- What stands in the tree, less what was put in and the end of the text, and what is ahead are the tokens of the
    text. -/
theorem tokens_of_account {p : Parser} {text : String} (hp : p.finished = true)
    (h : Parser.Account (fun t => !t.conjured) (lex text) p) :
    p.close.tokens.filter (fun t => t.kind ≠ .endOfText && !t.conjured) ++ p.ahead = (lex text).tokens := by
  obtain ⟨m, hm, htokens⟩ := h.tokens
  rw [← Parser.tokens_close hp] at htokens
  have hall : (lex text).tokens.filter (fun t => t.kind ≠ .endOfText) = (lex text).tokens :=
    List.filter_eq_self.mpr fun t ht => by simp [kind_ne_of_lex ht]
  have hnone : (List.replicate m (lex text).ending).filter (fun t => t.kind ≠ .endOfText) = [] := by simp [lex]
  -- the end of the text is nowhere ahead, for what is ahead are tokens of the text
  have hahead : p.ahead.filter (fun t => t.kind ≠ .endOfText) = p.ahead := by
    by_cases h0 : 0 < m
    · rw [hm h0, List.filter_nil]
    · refine List.filter_eq_self.mpr fun t ht => ?_
      obtain rfl : m = 0 := by omega
      rw [List.replicate_zero, List.append_nil] at htokens
      simp [kind_ne_of_lex (htokens ▸ List.mem_append_right _ ht : t ∈ (lex text).tokens)]
  have hfilter := congrArg (List.filter fun t => t.kind ≠ .endOfText) htokens
  rwa [List.filter_append, List.filter_append, List.filter_filter, hall, hnone, hahead, List.append_nil] at hfilter

/-- Reading a text by any rule comes to its end within the bound on its steps, and passing over tokens within that
    on its rounds; more would change nothing. What stands in the tree, less what was put in and the end of the text,
    are the first tokens of the text, each once and in order, and the others are still ahead. -/
theorem reading_ends_and_loses_nothing (r : Rule) (text : String) :
    (∀ n, Parser.bound (lex text).tokens.length ≤ n →
      (Parser.run n (Parser.start r (lex text))).finished = true ∧
        Parser.run n (Parser.start r (lex text)) =
          Parser.run (Parser.bound (lex text).tokens.length) (Parser.start r (lex text))) ∧
    (∀ (p : Parser) ks n, p.ending = (lex text).ending → p.ahead.length ≤ n → Parser.skipTo ks n p = p.skipUntil ks) ∧
    ∃ k ≤ (lex text).tokens.length,
      (parse r text).tree.tokens.filter (fun t => t.kind ≠ .endOfText && !t.conjured) = (lex text).tokens.take k ∧
      (Parser.run (Parser.bound (lex text).tokens.length) (Parser.start r (lex text))).ahead =
        (lex text).tokens.drop k := by
  have hfinished := Parser.run_finished r (l := lex text) rfl (Nat.le_refl _)
  refine ⟨fun n hn => ⟨Parser.run_finished r rfl hn, Parser.run_eq_of_le hfinished hn⟩,
    fun p ks n hp hn => Parser.skipTo_eq (by rw [hp]; rfl) hn, ?_⟩
  have htokens := tokens_of_account hfinished (account_of_text r text _)
  have hsplit {xs ys zs : List Token} (h : xs ++ ys = zs) :
      xs.length ≤ zs.length ∧ xs = zs.take xs.length ∧ ys = zs.drop xs.length := by
    subst h
    simp
  exact ⟨_, hsplit htokens⟩

end Statechart
