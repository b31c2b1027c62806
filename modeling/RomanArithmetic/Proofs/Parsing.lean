import RomanArithmetic.Proofs.Meanings
import RomanArithmetic.Proofs.WholeTexts

/-!
# The grammar finds the parse trees

The recognizer of expressions reads the parse trees of expressions
(`RomanArithmetic.Recognizer.reads_expression`). The rules refer to each other through the brackets,
so that this is an induction on the depth that the recognizer is allowed; a text between brackets is
shorter than the text with them, and a depth greater than the length of the text is therefore as
good as any.

That a row of operands can be read from left to right, without ever taking an operator or a bracket
for the wrong thing, is what `RomanArithmetic.Derives.nested` says about the texts: no operand is
continued by an operator that joins it, and no expression by the bracket that closes it.

From this `RomanArithmetic.parse_eq_ok_iff` says exactly which trees the parser answers with, and
`RomanArithmetic.accepted_iff` which texts it accepts.
-/

namespace RomanArithmetic

open RomanArithmetic.Tree (textAll)

/-- **The phrases of a category** are its parse trees. -/
def Category.phrases (c : Category) : Phrases := fun p ts => ∃ t, ParseTree c p t ∧ ts = [t]

/-- Operands with operators of a level between them. -/
def Phrases.chain (level : Level) (S : Phrases) : Phrases :=
  S.andThen ((Phrases.leaf (.operator level)).andThen S).many

/-! ### The texts of a category -/

namespace Category

variable {c : Category} {p : Nat} {ts : List Tree} {u w : List Char} {x : Char}

theorem exists_derives (h : c.phrases p ts) : ∃ v, Derives c (textAll ts) v := by
  obtain ⟨t, ht, rfl⟩ := h
  obtain ⟨e, -, hd, -⟩ := ht.exists_means
  exact ⟨e.value, by simpa using hd⟩

theorem exists_phrases {v : Int} (h : Derives c w v) (p : Nat) :
    ∃ ts, c.phrases p ts ∧ textAll ts = w := by
  obtain ⟨e, he, -⟩ := h.exists_writes
  obtain ⟨t, ht, rfl, -⟩ := he p
  exact ⟨[t], ⟨t, ht, rfl⟩, by simp⟩

/-- **Beginnings are those of derivable texts.** -/
theorem begins_iff : c.phrases.Begins p u ↔ ∃ w v, Derives c w v ∧ u <+: w := by
  constructor
  · rintro ⟨ts, hts, hu⟩
    obtain ⟨v, hv⟩ := exists_derives hts
    exact ⟨_, v, hv, hu⟩
  · rintro ⟨w, v, hv, hu⟩
    obtain ⟨ts, hts, rfl⟩ := exists_phrases hv p
    exact ⟨ts, hts, hu⟩

/-- The numeral for one is a stretch of every category. -/
theorem exists_derives_one (c : Category) : Derives c ['I'] 1 := by
  have h : Derives .factor ['I'] 1 :=
    .numeral ⟨0, 0, 0, 1, by omega, by omega, by omega, by omega, rfl, by simp, rfl⟩
  cases c with
  | expression => exact h.factor.term
  | term => exact h.factor
  | factor => exact h

theorem uniform_phrases (c : Category) : c.phrases.Uniform where
  exists_phrase p := by
    obtain ⟨ts, hts, -⟩ := exists_phrases c.exists_derives_one p
    exact ⟨ts, hts⟩
  transfer p q ts hts := by
    obtain ⟨v, hv⟩ := exists_derives hts
    exact exists_phrases hv q

/-- **A stretch ends before what it keeps inside brackets.** -/
theorem endsBefore_inner (c : Category) : c.phrases.EndsBefore c.inner := by
  intro p ts hts x hx
  obtain ⟨v, hv⟩ := exists_derives hts
  obtain ⟨w, v', hv', hpre⟩ := begins_iff.mp hx
  exact hv.nested.notMem_of_concat_prefix hv'.nested hpre

/-- In particular an operand ends before the operators that join it. -/
theorem endsBefore_symbols (level : Level) :
    level.part.phrases.EndsBefore {x | x ∈ level.symbols} := by
  refine (endsBefore_inner level.part).mono fun x hx => ?_
  cases level <;> simp [Level.symbols, Level.operators, Operator.symbol] at hx <;>
    simp [inner, Level.part, hx]

end Category

/-! ### The rules as kinds of phrases -/

namespace Phrases

variable {level : Level} {S : Phrases} {p : Nat} {ts us : List Tree}

/-- A row grows at its end. -/
theorem chain_concat (h : S.chain level p ts)
    (hu : ((leaf (.operator level)).andThen S) (p + (textAll ts).length) us) :
    S.chain level p (ts ++ us) := by
  obtain ⟨ss, ks, hs, hk, rfl⟩ := h
  rw [Tree.textAll_append, List.length_append, ← Nat.add_assoc] at hu
  exact ⟨ss, ks ++ us, hs, hk.concat hu, List.append_assoc ss ks us⟩

end Phrases

namespace Category

theorem exists_chain {level : Level} {t : Tree} (ht : ParseTree level.whole p t) :
    ∃ row, level.part.phrases.chain level p row ∧
      t = .node level.rule p (p + (textAll row).length) row := by
  generalize hc : level.whole = c at ht
  induction ht with
  | numeral _ | brackets _ _ => exact absurd hc level.whole_ne_factor
  | @single p t level' ht _ =>
    obtain rfl := Level.whole_injective hc
    exact ⟨[t], ⟨[t], [], ⟨t, ht, rfl⟩, .nil, rfl⟩, by simp⟩
  | @concat p q row t level' op hop _ ht ih _ =>
    obtain rfl := Level.whole_injective hc
    obtain ⟨row', hrow, he⟩ := ih rfl
    obtain ⟨rfl, rfl⟩ : q = p + (textAll row).length ∧ row = row' := by
      simp only [Tree.node.injEq, true_and] at he
      exact ⟨he.2 ▸ he.1, he.2⟩
    have hop : op.symbol ∈ level.symbols := List.mem_map_of_mem hop
    refine ⟨_, Phrases.chain_concat hrow ⟨_, [t], ⟨_, Leaf.matches_operator.mpr hop, rfl⟩,
      ⟨t, ht, rfl⟩, rfl⟩, ?_⟩
    simp [Nat.add_assoc, Nat.add_comm 1]

/-- **A row is a chain of operands**: what grows at its end can be read from its beginning. -/
theorem phrases_whole_eq (level : Level) :
    level.whole.phrases = (level.part.phrases.chain level).rule level.rule := by
  funext p ts
  refine propext ⟨?_, ?_⟩
  · rintro ⟨t, ht, rfl⟩
    obtain ⟨row, hrow, rfl⟩ := exists_chain ht
    exact ⟨row, hrow, rfl⟩
  · rintro ⟨_, ⟨_, ks, ⟨t, ht, rfl⟩, hk, rfl⟩, rfl⟩
    refine ⟨_, ?_, rfl⟩
    have hone : ParseTree level.whole p (.node level.rule p (p + (textAll [t]).length) [t]) := by
      simpa using ParseTree.single level ht
    rw [Tree.textAll_append, List.length_append, ← Nat.add_assoc]
    refine Phrases.many.attach
      (P := fun q row => ParseTree level.whole p (.node level.rule p q row)) ?_ hk hone
    rintro q row _ hrow ⟨_, _, ⟨x, hx, rfl⟩, ⟨u, hu, rfl⟩, rfl⟩
    obtain ⟨op, hop, rfl⟩ := List.mem_map.mp (Leaf.matches_operator.mp hx)
    have hu : ParseTree level.part (q + 1) u := by simpa using hu
    have hconcat := ParseTree.concat hop hrow hu
    simpa [Nat.add_assoc, Nat.add_comm 1] using hconcat

/-- **A factor is a numeral, or an expression between brackets.** -/
theorem phrases_factor_eq : factor.phrases = (Numeral.phrases.orElse <|
    (Phrases.leaf (.symbol ['('])).andThen <| expression.phrases.andThen <|
      Phrases.leaf (.symbol [')'])).rule .factor := by
  funext p ts
  refine propext ⟨?_, ?_⟩
  · rintro ⟨t, ht, rfl⟩
    generalize hc : factor = c at ht
    cases ht with
    | @numeral p d hne => exact ⟨_, Or.inl ⟨d, hne, rfl⟩, by simp⟩
    | @brackets p e he =>
      refine ⟨_, Or.inr ⟨_, _, ⟨'(', by simp, rfl⟩,
        ⟨[e], _, ⟨e, ?_, rfl⟩, ⟨')', by simp, rfl⟩, rfl⟩, rfl⟩, ?_⟩
      · simpa using he
      · simp
        omega
    | single level _ => exact absurd hc.symm level.whole_ne_factor
    | @concat _ _ _ _ level _ _ _ _ => exact absurd hc.symm level.whole_ne_factor
  · rintro ⟨_, ⟨d, hne, rfl⟩ |
      ⟨_, _, ⟨x, hx, rfl⟩, ⟨_, _, ⟨e, he, rfl⟩, ⟨y, hy, rfl⟩, rfl⟩, rfl⟩, rfl⟩
    · exact ⟨_, .numeral hne, by simp⟩
    · obtain rfl := Leaf.matches_symbol.mp hx
      obtain rfl := Leaf.matches_symbol.mp hy
      refine ⟨_, .brackets he, ?_⟩
      simp
      omega

end Category

/-! ### Reading the rules -/

namespace Recognizer

open Category

variable {r : Recognizer} {S : Phrases} {c : Cursor}

/-- An operator with an operand behind it. -/
theorem Reads.operation (level : Level)
    (hr : ∀ c', c'.rest.length ≤ c.rest.length → r.Reads S c') (hSu : S.Uniform) :
    ((leaf (.operator level)).andThen r).Reads ((Phrases.leaf (.operator level)).andThen S) c := by
  have hop := Leaf.single_operator level
  exact (reads_leaf hop c).andThen (fun _ c' hf => hr c' ((reads_leaf hop c).length_rest_le hf))
    (Phrases.endsBefore_leaf (A := Set.univ)) (fun _ _ _ => trivial) hSu

theorem startsIn_operation (level : Level) :
    ((Phrases.leaf (.operator level)).andThen S).StartsIn {x | x ∈ level.symbols} :=
  (Phrases.startsIn_leaf.mono fun _ => Leaf.matches_operator.mp).andThen_of_neverEmpty
    Phrases.neverEmpty_leaf

theorem uniform_operation (level : Level) (hSu : S.Uniform) :
    ((Phrases.leaf (.operator level)).andThen S).Uniform :=
  (Phrases.uniform_leaf (Leaf.single_operator level).exists_matches).andThen hSu

/-- What stands behind the first operand of a row. -/
theorem Reads.operations {level : Level}
    (hr : ∀ c', c'.rest.length ≤ c.rest.length → r.Reads S c')
    (hS : S.EndsBefore {x | x ∈ level.symbols}) (hSu : S.Uniform) :
    (Recognizer.many ((leaf (.operator level)).andThen r)).Reads
      ((Phrases.leaf (.operator level)).andThen S).many c :=
  Reads.many (fun _ hc' => .operation level (fun c'' hc'' => hr c'' (hc''.trans hc')) hSu)
    hS.leaf_andThen (startsIn_operation level) Phrases.neverEmpty_leaf.andThen_left
    (uniform_operation level hSu)

/-- **A row of operands is read from left to right**, if no operand is continued by an operator of
the row. -/
theorem Reads.chain {level : Level} (hr : ∀ c', c'.rest.length ≤ c.rest.length → r.Reads S c')
    (hS : S.EndsBefore {x | x ∈ level.symbols}) (hSu : S.Uniform) :
    (Grammar.chain level r).Reads (S.chain level) c := by
  have hfirst := hr c (Nat.le_refl _)
  refine hfirst.andThen (fun ts c' hf => ?_) hS
    ((startsIn_operation level).many Phrases.neverEmpty_leaf.andThen_left)
    (uniform_operation level hSu).many
  exact .operations (fun c'' hc'' => hr c'' (hc''.trans (hfirst.length_rest_le hf))) hS hSu

/-- **Factors are read** where what is between brackets is. -/
theorem reads_factor {inner : Recognizer}
    (hi : ∀ c', c'.rest.length < c.rest.length → inner.Reads expression.phrases c') :
    (Grammar.factor inner).Reads factor.phrases c := by
  have hclose := Leaf.single_symbol ')'
  have hopen := Leaf.single_symbol '('
  have hcloseu := Phrases.uniform_leaf hclose.exists_matches
  rw [phrases_factor_eq]
  refine Reads.rule (Reads.orElse (reads_numeral c) ?_ ?_) .factor
  · refine (reads_leaf hopen c).andThen (fun ls c' hf => ?_)
      (Phrases.endsBefore_leaf (A := Set.univ)) (fun _ _ _ => trivial)
      ((uniform_phrases .expression).andThen hcloseu)
    -- between brackets there is less text than there was before the opening one
    refine (hi c' ?_).andThen (fun _ c'' _ => reads_leaf hclose c'') (endsBefore_inner .expression)
      (Phrases.startsIn_leaf.mono fun _ => Leaf.matches_symbol.mp) hcloseu
    obtain ⟨⟨x, -, rfl⟩, hrest, -⟩ := (reads_leaf hopen c).found hf
    rw [hrest]
    simp
  · -- a numeral begins with a letter, which is no bracket
    rintro p _ ⟨d, hne, rfl⟩ hb
    obtain ⟨x, w, hw⟩ := List.exists_cons_of_ne_nil hne
    have hx := d.mem_numeralLetters (hw ▸ List.mem_cons_self : x ∈ d.text)
    rw [show textAll [d.tree p] = d.text by simp, hw] at hb
    obtain rfl := Leaf.matches_symbol.mp (Phrases.begins_leaf_andThen.mp hb).1
    exact absurd hx (by decide)

theorem reads_whole (level : Level)
    (hr : ∀ c', c'.rest.length ≤ c.rest.length → r.Reads level.part.phrases c') :
    (rule level.rule (Grammar.chain level r)).Reads level.whole.phrases c := by
  rw [phrases_whole_eq]
  exact (Reads.chain hr (endsBefore_symbols level) (uniform_phrases _)).rule level.rule

theorem reads_term {inner : Recognizer}
    (hi : ∀ c', c'.rest.length < c.rest.length → inner.Reads expression.phrases c') :
    (Grammar.term inner).Reads term.phrases c :=
  reads_whole .multiplicative fun _ hc' => reads_factor fun c'' hc'' => hi c'' (hc''.trans_le hc')

/-- **The grammar finds the parse trees of expressions**, if it is allowed to nest brackets as deep
as the text is long. -/
theorem reads_expression (n : Nat) (hc : c.rest.length < n) :
    (Grammar.expression n).Reads expression.phrases c := by
  induction n generalizing c with
  | zero => exact absurd hc (Nat.not_lt_zero _)
  | succ n ih =>
    have hterm : ∀ c', c'.rest.length ≤ c.rest.length →
        (Grammar.term (Grammar.expression n)).Reads term.phrases c' := fun c' hc' =>
      reads_term fun c'' hc'' => ih (by omega)
    exact (reads_whole .additive hterm).congr rfl

end Recognizer

/-! ### Whole texts -/

open Recognizer

variable {text : List Char} {tree : Tree} {failure : ParseFailure}

theorem reads_text (text : List Char) :
    (Grammar.expression (text.length + 1)).Reads Category.expression.phrases ⟨0, text⟩ :=
  reads_expression _ (Nat.lt_succ_self _)

/-- **What the parser answers with**: the parse tree of an expression, and the end of the text. -/
theorem parse_eq_ok_iff : parse text = .ok tree ↔ ∃ t, ParseTree .expression 0 t ∧ t.text = text ∧
    tree = .node .calculation 0 text.length [t, .leaf .endOfText text.length []] := by
  rw [parse]
  constructor
  · intro h
    cases hw : (Grammar.expression (text.length + 1)).whole text with
    | error failure => simp [hw, Except.map] at h
    | ok ts =>
      rw [hw, Except.map, Except.ok.injEq] at h
      obtain ⟨_, ⟨t, ht, rfl⟩, htext, rfl⟩ := (reads_text text).whole_eq_ok.mp hw
      exact ⟨t, ht, by simpa using htext, h.symm⟩
  · rintro ⟨t, ht, htext, rfl⟩
    have hw := (reads_text text).whole_eq_ok.mpr
      ⟨[t], ⟨t, ht, rfl⟩, by simpa using htext, rfl⟩
    rw [hw, Except.map, List.singleton_append]

theorem explains_of_parse_eq_error (h : parse text = .error failure) :
    failure.text = text ∧ failure.Explains Category.expression.phrases := by
  rw [parse] at h
  cases hw : (Grammar.expression (text.length + 1)).whole text with
  | ok ts => simp [hw, Except.map] at h
  | error failure' =>
    rw [hw, Except.map, Except.error.injEq] at h
    exact h ▸ (reads_text text).explains_of_whole_eq_error hw

/-- **The accepted texts are those of the expressions.** -/
theorem accepted_iff : Accepted text ↔
    ∃ ts, Category.expression.phrases 0 ts ∧ textAll ts = text := by
  constructor
  · rintro ⟨tree, h⟩
    obtain ⟨t, ht, rfl, -⟩ := parse_eq_ok_iff.mp h
    exact ⟨[t], ⟨t, ht, rfl⟩, by simp⟩
  · rintro ⟨_, ⟨t, ht, rfl⟩, rfl⟩
    exact ⟨_, parse_eq_ok_iff.mpr ⟨t, ht, by simp, rfl⟩⟩

/-- **The viable texts are their beginnings.** -/
theorem viable_iff : Viable text ↔ Category.expression.phrases.Begins 0 text := by
  constructor
  · rintro ⟨rest, h⟩
    obtain ⟨ts, hts, htext⟩ := accepted_iff.mp h
    exact ⟨ts, hts, rest, htext.symm⟩
  · rintro ⟨ts, hts, rest, htext⟩
    exact ⟨rest, accepted_iff.mpr ⟨ts, hts, htext.symm⟩⟩

end RomanArithmetic
