import RomanArithmetic.Proofs.Parsing

/-!
# Failures and the text behind them

A failure depends on nothing that stands behind the character at which it stands: two texts that
agree up to this character fail at the same place, with the same leaves in the same order
(`RomanArithmetic.parse_eq_error_of_shares`). Two runs of the parser are compared here, one on each
text, and the comparison is about everything that is tried on the way, since a leaf that is recorded
twice or in another place would show in the message.

The reason is one of bookkeeping. Whatever a recognizer looks at, it either goes past or records as
failed, and so what it reports – where it ends, and how far anything failed – tells how much of the
text it has seen. If that is no more than what two texts have in common, it does the same in front
of both (`RomanArithmetic.Recognizer.Agrees`). Each combination of recognizers inherits this from
its parts, because the record of the furthest failure is never reset. Two things are seen without
being reported and need an argument: the first letter of a numeral, which is only looked at, and the
length of the text, which bounds repetitions and brackets. The letter is gone past by the numeral,
and the bounds are never reached.
-/

namespace RomanArithmetic

open RomanArithmetic.Tree (textAll)

variable {n : Nat}

/-- **Two cursors share the text up to a position**: they stand at the same place, and what is left
of the two texts is the same up to there. -/
def Cursor.Shares (n : Nat) (c c' : Cursor) : Prop :=
  c'.position = c.position ∧
    ∃ u v w, c.rest = u ++ v ∧ c'.rest = u ++ w ∧ c.position + u.length = n

namespace Outcome

/-- **An outcome that stays in front of a position**: nothing failed at the position or behind it,
and what was found does not go past it. -/
structure StaysBefore (n : Nat) (o : Outcome) : Prop where
  furthest_lt : o.furthest.position < n
  found_le : ∀ {ts c}, o.found = some (ts, c) → c.position ≤ n

/-- **The same outcome** in front of two texts: the same trees are found or none, and the same is
recorded as failed. -/
structure Alike (n : Nat) (o o' : Outcome) : Prop where
  furthest_eq : o'.furthest = o.furthest
  found_none : o.found = none → o'.found = none
  found_some : ∀ {ts c}, o.found = some (ts, c) → ∃ c', o'.found = some (ts, c') ∧ c.Shares n c'

variable {o o' : Outcome} {m : Furthest} {ts : List Tree} {d : Cursor}
  {f f' : List Tree × Cursor → List Tree × Cursor}

theorem StaysBefore.of_found_none (hf : o.found = none) (hlt : o.furthest.position < n) :
    o.StaysBefore n :=
  ⟨hlt, fun he => absurd (hf.symm.trans he) (by simp)⟩

theorem StaysBefore.of_found_some (hf : o.found = some (ts, d)) (hlt : o.furthest.position < n)
    (hd : d.position ≤ n) : o.StaysBefore n := by
  refine ⟨hlt, fun he => ?_⟩
  obtain ⟨rfl, rfl⟩ : ts = _ ∧ d = _ := by simpa [hf] using he
  exact hd

/-- What is made of the trees that are found does not matter for where they end. -/
theorem StaysBefore.of_map (h : StaysBefore n ⟨o.found.map f, m⟩) (hf : ∀ x, (f x).2 = x.2)
    (hlt : o.furthest.position < n) : o.StaysBefore n := by
  refine ⟨hlt, fun {ts d} he => ?_⟩
  have hle := h.found_le (Option.map_eq_some_iff.mpr ⟨_, he, rfl⟩)
  rwa [hf] at hle

/-- What is made of the same trees is the same, if only their position matters for it. -/
theorem Alike.map (h : o.Alike n o') (hf : ∀ x, (f x).2 = x.2)
    (hff : ∀ ts d d', d'.position = d.position → f' (ts, d') = ((f (ts, d)).1, d')) :
    Alike n ⟨o.found.map f, m⟩ ⟨o'.found.map f', m⟩ := by
  refine ⟨rfl, fun he => ?_, fun {us e} he => ?_⟩
  · exact Option.map_eq_none_iff.mpr (h.found_none (Option.map_eq_none_iff.mp he))
  · obtain ⟨⟨ts, d⟩, hd, heq⟩ := Option.map_eq_some_iff.mp he
    obtain ⟨d', hd', hs⟩ := h.found_some hd
    obtain rfl : e = d := by simpa only [heq] using hf (ts, d)
    refine ⟨d', Option.map_eq_some_iff.mpr ⟨_, hd', ?_⟩, hs⟩
    rw [hff ts e d' hs.1, heq]

end Outcome

open Outcome

namespace Recognizer

variable {r r' q q' : Recognizer} {c c' : Cursor} {S : Phrases}

/-- **Two recognizers agree** at two cursors: if the cursors share the text up to a position and the
first recognizer stays in front of it, the other one has the same outcome. -/
def Agrees (n : Nat) (r q : Recognizer) (c c' : Cursor) : Prop :=
  c.Shares n c' → (r c).StaysBefore n → (r c).Alike n (q c')

/-- A recognizer goes onward: it does not end in front of where it began, and it finds nothing only
if something has failed there or later. -/
structure Onward (r : Recognizer) (c : Cursor) : Prop where
  position_le : ∀ {ts d}, (r c).found = some (ts, d) → c.position ≤ d.position
  furthest_le : (r c).found = none → c.position ≤ (r c).furthest.position

/-- What reads a kind of phrases goes onward: if there is no phrase, a beginning has failed. -/
theorem Reads.onward (hr : r.Reads S c) : r.Onward c where
  position_le hf := by
    rw [(hr.found hf).2.2]
    omega
  furthest_le hf := by
    obtain ⟨u, hu, hm⟩ := hr.furthest
    have hno : ¬∃ ts, S c.position ts ∧ textAll ts = u := by
      rintro ⟨ts, hts, rfl⟩
      obtain ⟨_, _, hf', -⟩ := hr.longest hts hu.isPrefix
      exact absurd (hf.symm.trans hf') (by simp)
    obtain ⟨x, hx⟩ := hu.begins.exists_mem_next hno
    obtain ⟨l, hl, -⟩ := (hm.mem_iff x).mp hx
    rw [(Furthest.mem_leaves_of_mem_leavesAt hl).1]
    omega

theorem Onward.andThen (hr : r.Onward c) (hq : ∀ {ts d}, (r c).found = some (ts, d) → q.Onward d) :
    (r.andThen q).Onward c := by
  cases hf : (r c).found with
  | none =>
    have he := andThen_of_none (q := q) hf
    exact ⟨fun h => hr.position_le (he ▸ h), fun _ => he ▸ hr.furthest_le hf⟩
  | some found =>
    obtain ⟨ts, d⟩ := found
    have hle := hr.position_le hf
    refine ⟨fun h => ?_, fun h => ?_⟩
    · rw [andThen_of_some hf] at h
      obtain ⟨⟨us, e⟩, hqf, he⟩ := Option.map_eq_some_iff.mp h
      obtain ⟨-, rfl⟩ := Prod.mk.inj he
      exact hle.trans ((hq hf).position_le hqf)
    · rw [andThen_of_some hf] at h ⊢
      have hfail := (hq hf).furthest_le (Option.map_eq_none_iff.mp h)
      rw [Furthest.position_merge]
      omega

theorem Onward.optional (hr : r.Onward c) : (optional r).Onward c := by
  cases hf : (r c).found with
  | none =>
    have he : (Recognizer.optional r c).found = some ([], c) := by
      rw [Recognizer.optional, orElse_of_none hf]
      rfl
    refine ⟨fun h => ?_, fun h => absurd (h.symm.trans he) (by simp)⟩
    obtain ⟨-, rfl⟩ : _ ∧ c = _ := by simpa [he] using h
    exact Nat.le_refl _
  | some found =>
    have he : Recognizer.optional r c = r c := orElse_of_some hf
    exact ⟨fun h => hr.position_le (he ▸ h), fun h => he ▸ hr.furthest_le (he ▸ h)⟩

/-! ### Leaves -/

theorem agrees_empty (n : Nat) (c c' : Cursor) : Agrees n empty empty c c' := by
  intro hs _
  refine ⟨rfl, nofun, fun hf => ?_⟩
  obtain ⟨rfl, rfl⟩ : [] = _ ∧ c = _ := by simpa [empty] using hf
  exact ⟨c', rfl, hs⟩

/-- **A leaf of one character** sees no more than that character. -/
theorem agrees_leaf {l : Leaf} (hl : l.Single) (n : Nat) (c c' : Cursor) :
    Agrees n (leaf l) (leaf l) c c' := by
  rintro ⟨hpos, u, v, w, hc, hc', hn⟩ hstays
  obtain ⟨p, text⟩ := c
  obtain ⟨p', text'⟩ := c'
  obtain rfl : p = p' := hpos.symm
  obtain rfl : text = u ++ v := hc
  obtain rfl : text' = u ++ w := hc'
  have hreads := reads_leaf hl ⟨p, u ++ v⟩
  cases u with
  | nil =>
    -- the leaf would have to be tried at the position, and be recorded there or go past it
    exfalso
    cases hf : (leaf l ⟨p, v⟩).found with
    | none =>
      have hle := hreads.onward.furthest_le hf
      have hlt := hstays.furthest_lt
      rw [← hn] at hlt
      exact absurd (Nat.lt_of_le_of_lt hle hlt) (Nat.lt_irrefl p)
    | some found =>
      obtain ⟨ts, d⟩ := found
      obtain ⟨⟨x, -, rfl⟩, -, hd⟩ := hreads.found hf
      have hle := hstays.found_le hf
      simp at hd hn
      omega
  | cons x u =>
    by_cases hx : l.Matches x
    · rw [List.cons_append, List.cons_append, leaf_of_matches hl hx, leaf_of_matches hl hx]
      refine ⟨rfl, fun hf => absurd hf (by simp), fun hf => ?_⟩
      obtain ⟨rfl, rfl⟩ : [Tree.leaf l p [x]] = _ ∧ (⟨p + 1, u ++ v⟩ : Cursor) = _ := by
        simpa using hf
      exact ⟨_, rfl, rfl, u, v, w, rfl, rfl, (Nat.add_right_comm p 1 u.length).trans hn⟩
    · have hnone : ∀ text, l.take? (x :: text) = none := fun text => by
        rw [hl.take?_cons, if_neg hx]
      rw [leaf_of_take?_eq_none (hnone _), leaf_of_take?_eq_none (hnone _)]
      exact ⟨rfl, fun _ => rfl, fun hf => absurd hf (by simp)⟩

/-! ### Sequence, choice and rules -/

/-- **A sequence agrees if its parts do.** The second part goes onward from where the first part
ends, so that the first part stays in front of the position as well. -/
theorem Agrees.andThen (h₁ : Agrees n r q c c')
    (h₂ : ∀ {ts d d'}, (r c).found = some (ts, d) → (q c').found = some (ts, d') →
      Agrees n r' q' d d')
    (hr' : ∀ {ts d}, (r c).found = some (ts, d) → r'.Onward d) :
    Agrees n (r.andThen r') (q.andThen q') c c' := by
  intro hs hstays
  cases hf : (r c).found with
  | none =>
    rw [andThen_of_none hf] at hstays ⊢
    have halike := h₁ hs hstays
    rwa [andThen_of_none (halike.found_none hf)]
  | some found =>
    obtain ⟨ts, d⟩ := found
    rw [andThen_of_some hf] at hstays ⊢
    have hlt := hstays.furthest_lt
    rw [Furthest.position_merge] at hlt
    have hstays' : (r' d).StaysBefore n := hstays.of_map (fun _ => rfl) (by omega)
    have hdn : d.position ≤ n := by
      cases he : (r' d).found with
      | none =>
        have hfail := (hr' hf).furthest_le he
        omega
      | some found => exact ((hr' hf).position_le he).trans (hstays'.found_le he)
    have halike := h₁ hs (.of_found_some hf (by omega) hdn)
    obtain ⟨d', hf', hs'⟩ := halike.found_some hf
    have halike' := h₂ hf hf' hs' hstays'
    rw [andThen_of_some hf', halike.furthest_eq, halike'.furthest_eq]
    exact halike'.map (fun _ => rfl) fun _ _ _ _ => rfl

/-- **A choice agrees if both possibilities do**, since the second is tried in the same case. -/
theorem Agrees.orElse (h₁ : Agrees n r q c c') (h₂ : Agrees n r' q' c c') :
    Agrees n (r.orElse r') (q.orElse q') c c' := by
  intro hs hstays
  cases hf : (r c).found with
  | none =>
    rw [orElse_of_none hf] at hstays ⊢
    obtain ⟨hlt, hle⟩ := hstays
    rw [Furthest.position_merge] at hlt
    have halike := h₁ hs (.of_found_none hf (by omega))
    have halike' := h₂ hs ⟨by omega, hle⟩
    rw [orElse_of_none (halike.found_none hf), halike.furthest_eq, halike'.furthest_eq]
    exact ⟨rfl, halike'.found_none, halike'.found_some⟩
  | some found =>
    rw [orElse_of_some hf] at hstays ⊢
    have halike := h₁ hs hstays
    obtain ⟨d', hf', -⟩ := halike.found_some hf
    rwa [orElse_of_some hf']

theorem Agrees.optional (h : Agrees n r q c c') :
    Agrees n (optional r) (optional q) c c' :=
  h.orElse (agrees_empty n c c')

theorem Agrees.rule (R : Rule) (h : Agrees n r q c c') : Agrees n (rule R r) (rule R q) c c' := by
  intro hs hstays
  have halike := h hs (hstays.of_map (fun _ => rfl) hstays.furthest_lt)
  rw [Recognizer.rule, Recognizer.rule, halike.furthest_eq]
  exact halike.map (fun _ => rfl) fun ts d d' hd => by simp only [hs.1, hd]

/-! ### What is looked at only -/

/-- **A look at the first character** of what is gone past anyway. -/
theorem Agrees.ahead {l : Leaf} (hl : l.Single) (h : Agrees n r q c c') (hr : r.Reads S c)
    (hone : ∀ p x, l.Matches x → ∃ ts, S p ts ∧ textAll ts = [x]) :
    Agrees n ((ahead (leaf l)).andThen r) ((ahead (leaf l)).andThen q) c c' := by
  intro hs hstays
  cases hf : (leaf l c).found with
  | none =>
    rw [ahead_andThen_of_none hf] at hstays ⊢
    have halike := agrees_leaf hl n c c' hs (.of_found_none hf hstays.furthest_lt)
    rw [ahead_andThen_of_none (halike.found_none hf), halike.furthest_eq]
    exact ⟨rfl, fun _ => rfl, nofun⟩
  | some found =>
    obtain ⟨ls, d⟩ := found
    rw [ahead_andThen_of_some hf] at hstays ⊢
    obtain ⟨hlt, hle⟩ := hstays
    rw [Furthest.position_merge] at hlt
    have hstays' : (r c).StaysBefore n := ⟨by omega, hle⟩
    have hdn : d.position ≤ n := by
      obtain ⟨⟨x, hx, rfl⟩, hrest, hd⟩ := (reads_leaf hl c).found hf
      obtain ⟨ts, hts, htext⟩ := hone c.position x hx
      have hpre : textAll ts <+: c.rest := htext ▸ (reads_leaf hl c).prefix_of_found hf
      obtain ⟨us, e, he, hlen⟩ := hr.longest hts hpre
      have hen := hstays'.found_le he
      rw [(hr.found he).2.2] at hen
      rw [htext] at hlen
      have hpos : 1 ≤ (textAll us).length := by
        rcases hlen with rfl | hlen
        · rw [htext, List.length_singleton]
        · exact Nat.le_of_lt hlen
      rw [hd]
      exact (Nat.add_le_add_left hpos _).trans hen
    have halike := agrees_leaf hl n c c' hs (.of_found_some hf (by omega) hdn)
    obtain ⟨d', hf', -⟩ := halike.found_some hf
    have halike' := h hs hstays'
    rw [ahead_andThen_of_some hf', halike.furthest_eq, halike'.furthest_eq]
    exact ⟨rfl, halike'.found_none, halike'.found_some⟩

/-! ### Numerals -/

theorem agrees_symbol_andThen (x : Char) (hr : ∀ c c', Agrees n r r c c') (hon : ∀ c, r.Onward c)
    (c c' : Cursor) : Agrees n ((symbol [x]).andThen r) ((symbol [x]).andThen r) c c' :=
  (agrees_leaf (Leaf.single_symbol x) n c c').andThen (fun _ _ => hr _ _) fun _ => hon _

theorem agrees_upTo_symbol (n : Nat) (x : Char) (limit : Nat) (c c' : Cursor) :
    Agrees n (upTo limit (symbol [x])) (upTo limit (symbol [x])) c c' := by
  induction limit generalizing c c' with
  | zero => exact agrees_empty n c c'
  | succ limit ih =>
    exact (agrees_symbol_andThen x ih (fun c => (reads_upTo_symbol x limit c).onward) c c').optional

theorem agrees_form {place : Place} {low mid top : Char} (h : place.Distinct low mid top) (n : Nat)
    (c c' : Cursor) : Agrees n place.form place.form c c' := by
  have hpair : ∀ x y c c', Agrees n ((symbol [x]).andThen (symbol [y]))
      ((symbol [x]).andThen (symbol [y])) c c' := fun x y =>
    agrees_symbol_andThen x (agrees_leaf (Leaf.single_symbol y) n) fun c =>
      (reads_symbol_words y c).onward
  have hunits : ∀ x limit c c', Agrees n ((symbol [x]).andThen (upTo limit (symbol [low])))
      ((symbol [x]).andThen (upTo limit (symbol [low]))) c c' := fun x limit =>
    agrees_symbol_andThen x (agrees_upTo_symbol n low limit) fun c =>
      (reads_upTo_symbol low limit c).onward
  rw [Place.form, h.low_eq, h.mid_eq, h.top_eq]
  exact (hpair low top c c').orElse <| (hunits mid 3 c c').orElse <|
    (hpair low mid c c').orElse (hunits low 2 c c')

theorem agrees_numeral (n : Nat) (c c' : Cursor) :
    Agrees n Grammar.numeral Grammar.numeral c c' := by
  have hM : ∀ c c', Agrees n Grammar.thousands Grammar.thousands c c' := fun c c' =>
    (agrees_symbol_andThen 'M' (agrees_upTo_symbol n 'M' 2)
      (fun c => (reads_upTo_symbol 'M' 2 c).onward) c c').rule .thousands
  have hC := fun c c' => (agrees_form Place.distinct_hundreds n c c').rule .hundreds
  have hX := fun c c' => (agrees_form Place.distinct_tens n c c').rule .tens
  have hI := fun c c' => (agrees_form Place.distinct_ones n c c').rule .ones
  have honC := fun c => (reads_digit Place.distinct_hundreds .hundreds c).onward
  have honX := fun c => (reads_digit Place.distinct_tens .tens c).onward
  have honI := fun c => (reads_digit Place.distinct_ones .ones c).onward
  have hon34 := fun c => (honX c).andThen fun _ => honI _
  have hon234 := fun c => (honC c).andThen fun _ => hon34 _
  refine Agrees.rule .numeral (Agrees.ahead Leaf.single_letter ?_ (reads_placesPhrases c)
    fun p x hx => Numeral.exists_placesPhrases_of_matches p hx)
  refine (hM c c').optional.andThen (fun _ _ => ?_) fun _ => hon234 _
  refine (hC _ _).optional.andThen (fun _ _ => ?_) fun _ => hon34 _
  exact (hX _ _).optional.andThen (fun _ _ => (hI _ _).optional) fun _ => honI _

/-! ### Repetitions and brackets -/

theorem Onward.upTo_many {k : Nat} (hr : ∀ d, d.rest.length < k → r.Reads S d)
    (hne : S.NeverEmpty) (hc : c.rest.length < k) : (upTo k r).Onward c := by
  induction k generalizing c with
  | zero => exact absurd hc (Nat.not_lt_zero _)
  | succ k ih =>
    refine Onward.optional ((hr c hc).onward.andThen fun hf => ?_)
    have hlt := (hr c hc).length_rest_lt hne hf
    exact ih (fun d hd => hr d (by omega)) (by omega)

theorem Onward.many (hr : ∀ d, d.rest.length ≤ c.rest.length → r.Reads S d)
    (hne : S.NeverEmpty) : (many r).Onward c := by
  have h := Onward.upTo_many (fun d hd => hr d (Nat.le_of_lt_succ hd)) hne
    (Nat.lt_succ_self c.rest.length)
  exact ⟨h.position_le, h.furthest_le⟩

/-- **A repetition whose bound is not reached** does not depend on its bound. -/
theorem Agrees.upTo_many {k m : Nat}
    (h : ∀ d d', d.rest.length < k → d'.rest.length < m → Agrees n r q d d')
    (hr : ∀ d, d.rest.length < k → r.Reads S d) (hq : ∀ d', d'.rest.length < m → q.Reads S d')
    (hne : S.NeverEmpty) (hc : c.rest.length < k) (hc' : c'.rest.length < m) :
    Agrees n (upTo k r) (upTo m q) c c' := by
  induction k generalizing m c c' with
  | zero => exact absurd hc (Nat.not_lt_zero _)
  | succ k ih =>
    obtain ⟨m, rfl⟩ := Nat.exists_eq_succ_of_ne_zero (Nat.ne_zero_of_lt hc')
    refine Agrees.optional ((h c c' hc hc').andThen (fun hf hf' => ?_) fun hf => ?_)
    · have hlt := (hr c hc).length_rest_lt hne hf
      have hlt' := (hq c' hc').length_rest_lt hne hf'
      exact ih (fun d d' hd hd' => h d d' (by omega) (by omega)) (fun d hd => hr d (by omega))
        (fun d' hd' => hq d' (by omega)) (by omega) (by omega)
    · have hlt := (hr c hc).length_rest_lt hne hf
      exact Onward.upTo_many (fun d hd => hr d (by omega)) hne (by omega)

/-- **A row of operands** agrees if the operands do. -/
theorem Agrees.chain (level : Level)
    (h : ∀ d d', d.rest.length ≤ c.rest.length → d'.rest.length ≤ c'.rest.length →
      Agrees n r q d d')
    (hr : ∀ d, d.rest.length ≤ c.rest.length → r.Reads S d)
    (hq : ∀ d', d'.rest.length ≤ c'.rest.length → q.Reads S d') (hSu : S.Uniform) :
    Agrees n (Grammar.chain level r) (Grammar.chain level q) c c' := by
  have hop := Leaf.single_operator level
  have hne : ((Phrases.leaf (.operator level)).andThen S).NeverEmpty :=
    Phrases.neverEmpty_leaf.andThen_left
  have hoperation : ∀ d d', d.rest.length ≤ c.rest.length → d'.rest.length ≤ c'.rest.length →
      Agrees n ((leaf (.operator level)).andThen r) ((leaf (.operator level)).andThen q) d d' := by
    intro d d' hd hd'
    refine (agrees_leaf hop n d d').andThen (fun hf hf' => h _ _ ?_ ?_) fun hf => (hr _ ?_).onward
    · exact ((reads_leaf hop d).length_rest_le hf).trans hd
    · exact ((reads_leaf hop d').length_rest_le hf').trans hd'
    · exact ((reads_leaf hop d).length_rest_le hf).trans hd
  have hreads : ∀ {s : Recognizer} {b e : Cursor},
      (∀ d, d.rest.length ≤ b.rest.length → s.Reads S d) → e.rest.length ≤ b.rest.length →
        ((leaf (.operator level)).andThen s).Reads ((Phrases.leaf (.operator level)).andThen S) e :=
    fun hs he => .operation level (fun d hd => hs d (hd.trans he)) hSu
  refine (h c c' (Nat.le_refl _) (Nat.le_refl _)).andThen (fun {_ d d'} hf hf' => ?_)
    fun {_ d} hf => ?_
  · have hle := (hr c (Nat.le_refl _)).length_rest_le hf
    have hle' := (hq c' (Nat.le_refl _)).length_rest_le hf'
    exact Agrees.upTo_many (k := d.rest.length + 1) (m := d'.rest.length + 1)
      (fun e e' he he' => hoperation e e' (by omega) (by omega)) (fun e he => hreads hr (by omega))
      (fun e' he' => hreads hq (by omega)) hne (Nat.lt_succ_self _) (Nat.lt_succ_self _)
  · have hle := (hr c (Nat.le_refl _)).length_rest_le hf
    exact Onward.many (fun e he => hreads hr (he.trans hle)) hne

/-- **A factor** agrees if what is between its brackets does. -/
theorem Agrees.factor {inner inner' : Recognizer}
    (h : ∀ d d', d.rest.length < c.rest.length → d'.rest.length < c'.rest.length →
      Agrees n inner inner' d d')
    (hi : ∀ d, d.rest.length < c.rest.length → inner.Reads Category.expression.phrases d) :
    Agrees n (Grammar.factor inner) (Grammar.factor inner') c c' := by
  have hopen := Leaf.single_symbol '('
  have hclose := Leaf.single_symbol ')'
  refine Agrees.rule .factor ((agrees_numeral n c c').orElse ?_)
  refine (agrees_leaf hopen n c c').andThen (fun hf hf' => ?_) fun hf => ?_
  · have hlt := (reads_leaf hopen c).length_rest_lt Phrases.neverEmpty_leaf hf
    have hlt' := (reads_leaf hopen c').length_rest_lt Phrases.neverEmpty_leaf hf'
    exact (h _ _ hlt hlt').andThen (fun _ _ => agrees_leaf hclose n _ _) fun _ =>
      (reads_leaf hclose _).onward
  · have hlt := (reads_leaf hopen c).length_rest_lt Phrases.neverEmpty_leaf hf
    exact (hi _ hlt).onward.andThen fun _ => (reads_leaf hclose _).onward

/-- **A term** agrees if what is between the brackets of its factors does. -/
theorem Agrees.term {inner inner' : Recognizer}
    (h : ∀ d d', d.rest.length < c.rest.length → d'.rest.length < c'.rest.length →
      Agrees n inner inner' d d')
    (hi : ∀ d, d.rest.length < c.rest.length → inner.Reads Category.expression.phrases d)
    (hi' : ∀ d', d'.rest.length < c'.rest.length → inner'.Reads Category.expression.phrases d') :
    Agrees n (Grammar.term inner) (Grammar.term inner') c c' := by
  refine Agrees.rule .term (Agrees.chain .multiplicative (fun d d' hd hd' => ?_)
    (fun d hd => reads_factor fun e he => hi e (he.trans_le hd))
    (fun d' hd' => reads_factor fun e' he' => hi' e' (he'.trans_le hd'))
    (Category.uniform_phrases .factor))
  exact Agrees.factor (fun e e' he he' => h e e' (he.trans_le hd) (he'.trans_le hd'))
    fun e he => hi e (he.trans_le hd)

/-- **Expressions agree**, whatever depth they are allowed, if it is more than the text needs. -/
theorem agrees_expression (n : Nat) {k m : Nat} (hc : c.rest.length < k)
    (hc' : c'.rest.length < m) :
    Agrees n (Grammar.expression k) (Grammar.expression m) c c' := by
  induction k generalizing m c c' with
  | zero => exact absurd hc (Nat.not_lt_zero _)
  | succ k ih =>
    obtain ⟨m, rfl⟩ := Nat.exists_eq_succ_of_ne_zero (Nat.ne_zero_of_lt hc')
    have hreads : ∀ {j : Nat} {b d : Cursor}, b.rest.length < j + 1 →
        d.rest.length ≤ b.rest.length → ∀ e, e.rest.length < d.rest.length →
          (Grammar.expression j).Reads Category.expression.phrases e := fun hb hd e he =>
      reads_expression _ (by omega)
    refine Agrees.rule .expression (Agrees.chain .additive (fun d d' hd hd' => ?_)
      (fun d hd => reads_term (hreads hc hd)) (fun d' hd' => reads_term (hreads hc' hd'))
      (Category.uniform_phrases .term))
    exact Agrees.term (fun e e' he he' => ih (by omega) (by omega)) (hreads hc hd)
      (hreads hc' hd')

/-! ### Two texts -/

variable {s t : List Char} {failure : ParseFailure}

/-- **Two texts that share what a failure has seen**: where one is not read as a whole, the other is
not either, and for the same reasons. -/
theorem Agrees.whole_eq_error (h : Agrees (failure.position + 1) r q ⟨0, s⟩ ⟨0, t⟩)
    (hs : Cursor.Shares (failure.position + 1) ⟨0, s⟩ ⟨0, t⟩) (hr : r.whole s = .error failure) :
    q.whole t = .error ⟨t, failure.position, failure.leaves⟩ := by
  cases hf : (r ⟨0, s⟩).found with
  | none =>
    rw [whole_of_none hf, Except.error.injEq] at hr
    subst hr
    have halike := h hs (.of_found_none hf (Nat.lt_succ_self _))
    rw [whole_of_none (halike.found_none hf), halike.furthest_eq]
  | some found =>
    obtain ⟨ts, p, rest⟩ := found
    cases rest with
    | nil => simp [whole_of_some_nil hf] at hr
    | cons x rest =>
      rw [whole_of_some_cons hf, Except.error.injEq] at hr
      subst hr
      -- the end of the text was looked for in vain, and is recorded or was outdone
      have hmax := Furthest.position_merge (r ⟨0, s⟩).furthest (.failed .endOfText p)
      have hp : (Furthest.failed .endOfText p).position = p := rfl
      have halike := h hs (.of_found_some hf (by simp only; omega) (by simp only; omega))
      obtain ⟨⟨p', rest'⟩, hf', hpp, u, v, w, -, hrest, hlen⟩ := halike.found_some hf
      obtain rfl : p = p' := hpp.symm
      obtain rfl : rest' = u ++ w := hrest
      cases u with
      | nil =>
        simp only [List.length_nil] at hlen
        omega
      | cons y u =>
        rw [List.cons_append] at hf'
        rw [whole_of_some_cons hf', halike.furthest_eq]

end Recognizer

variable {s t : List Char} {failure : ParseFailure}

theorem parse_eq_error_of_shares (h : parse s = .error failure)
    (hs : Cursor.Shares (failure.position + 1) ⟨0, s⟩ ⟨0, t⟩) :
    parse t = .error ⟨t, failure.position, failure.leaves⟩ := by
  have hagrees : Recognizer.Agrees (failure.position + 1) (Grammar.expression (s.length + 1))
      (Grammar.expression (t.length + 1)) ⟨0, s⟩ ⟨0, t⟩ :=
    Recognizer.agrees_expression _ (Nat.lt_add_one _) (Nat.lt_add_one _)
  rw [parse] at h ⊢
  cases hw : (Grammar.expression (s.length + 1)).whole s with
  | ok ts => simp [hw, Except.map] at h
  | error failure' =>
    rw [hw, Except.map, Except.error.injEq] at h
    subst h
    rw [hagrees.whole_eq_error hs hw, Except.map]

/-- **A failure depends only on the text up to its character.** If a text fails at one of its
characters, every text that agrees with it up to this character fails there as well, with the same
leaves, expectations and names in the same order, in the same line and column. The messages are the
same but for the neighbourhood that they quote. -/
theorem parse_eq_error_of_take_eq (h : parse s = .error failure)
    (hs : failure.position < s.length)
    (htake : t.take (failure.position + 1) = s.take (failure.position + 1)) :
    ∃ failure', parse t = .error failure' ∧ failure'.position = failure.position ∧
      failure'.leaves = failure.leaves ∧ failure'.expected = failure.expected ∧
      failure'.titles = failure.titles ∧ failure'.line = failure.line ∧
      failure'.column = failure.column ∧
      ∃ start, failure.message = start ++ String.ofList failure.context ++ "'." ∧
        failure'.message = start ++ String.ofList failure'.context ++ "'." := by
  have hshares : Cursor.Shares (failure.position + 1) ⟨0, s⟩ ⟨0, t⟩ := by
    refine ⟨rfl, s.take (failure.position + 1), s.drop (failure.position + 1),
      t.drop (failure.position + 1), (List.take_append_drop _ s).symm, ?_, ?_⟩
    · rw [← htake, List.take_append_drop]
    · rw [List.length_take, Nat.zero_add]
      exact Nat.min_eq_left hs
  obtain ⟨text, position, leaves⟩ := failure
  obtain rfl : text = s := (explains_of_parse_eq_error h).1
  have hbefore : t.take position = text.take position := by
    have hle : min position (position + 1) = position := by omega
    have htwice := congrArg (List.take position) htake
    rwa [List.take_take, List.take_take, hle] at htwice
  have hline : (ParseFailure.mk t position leaves).line =
      (ParseFailure.mk text position leaves).line := by
    simp only [ParseFailure.line, ParseFailure.before, hbefore]
  have hcolumn : (ParseFailure.mk t position leaves).column =
      (ParseFailure.mk text position leaves).column := by
    simp only [ParseFailure.column, ParseFailure.before, hbefore]
  have hmessage : ∀ f : ParseFailure, f.message = "Expected " ++ " or ".intercalate f.titles ++
      " at position (" ++ toString f.line ++ ", " ++ toString f.column ++ ") => '" ++
      String.ofList f.context ++ "'." := fun _ => rfl
  refine ⟨_, parse_eq_error_of_shares h hshares, rfl, rfl, rfl, rfl, hline, hcolumn, _, rfl, ?_⟩
  rw [hmessage, hline, hcolumn]
  rfl

/-- A second operator fails in the same way whatever follows it, sense or nonsense. -/
theorem parse_eq_error_of_take_eq_operator :
    let failure : ParseFailure := ⟨['V', '+', '*', 'I'], 2, [.letter, .symbol ['(']]⟩
    parse ['V', '+', '*', 'I'] = .error failure ∧
      ∃ failure', parse ['V', '+', '*', ')', ' ', 'Q'] = .error failure' ∧
        failure'.position = 2 ∧ failure'.expected = failure.expected ∧
        failure'.titles = failure.titles := by
  intro failure
  have h : parse ['V', '+', '*', 'I'] = .error failure := rfl
  obtain ⟨failure', hparse, hposition, -, hexpected, htitles, -⟩ :=
    parse_eq_error_of_take_eq (t := ['V', '+', '*', ')', ' ', 'Q']) h (by decide) rfl
  exact ⟨h, failure', hparse, hposition, hexpected, htitles⟩

end RomanArithmetic
