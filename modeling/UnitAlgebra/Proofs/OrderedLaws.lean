import Mathlib.Algebra.Order.GroupWithZero.Basic
import Mathlib.Algebra.Order.Ring.Unbundled.Basic
import UnitAlgebra.Proofs.Laws

/-!
# The laws that keep the order of terms

Equality of expressions leaves out the order of their terms, but their texts show it. Some laws hold
of the expressions themselves, term by term and in the same order. They rest on one fact about
canonical forms: among the bases whose totals have one sign, `reduce` keeps the order
(`filter_bases_reduce`). The end of a list may be brought into canonical form beforehand
(`reduce_append_reduce`), since a base that is new there has the sign at the end that it has in
the whole. So may a list whose terms are raised to a power (`reduce_map_pow_reduce`), since the
power keeps all signs or turns all of them over. The beginning of a list may not: it decides where a
base occurs first, and a base may change its sign later.
-/

namespace UnitAlgebra

namespace Terms

/-! ## Bases -/

/-- The bases of a longer list are those of its beginning, and then the new ones of its end. -/
theorem bases_append (ts us : List Term) :
    bases (ts ++ us) = bases ts ++ (bases us).filter fun b => b ∉ bases ts := by
  induction us using List.reverseRecOn with
  | nil => simp [bases]
  | append_singleton us u ih =>
    rw [← List.append_assoc, bases_append_singleton (ts ++ us), bases_append_singleton us, ih]
    by_cases hold : u.isNeutral = true ∨ u.base ∈ bases us
    · -- what the end has before its last term, the whole has, too
      have hwhole : u.isNeutral = true ∨
          u.base ∈ bases ts ++ (bases us).filter fun b => b ∉ bases ts := by
        refine hold.imp_right fun hus => List.mem_append.2 ?_
        by_cases hts : u.base ∈ bases ts
        · exact .inl hts
        · exact .inr (List.mem_filter.2 ⟨hus, by simpa using hts⟩)
      rw [if_pos hold, if_pos hwhole]
    · obtain ⟨hneutral, hus⟩ := not_or.1 hold
      rw [if_neg hold, List.filter_append, ← List.append_assoc]
      by_cases hts : u.base ∈ bases ts
      · rw [if_pos (.inr (List.mem_append_left _ hts)),
          List.filter_cons_of_neg (by simpa using hts), List.filter_nil, List.append_nil]
      · rw [if_neg (by simp [hneutral, hus, hts]), List.filter_cons_of_pos (by simpa using hts),
          List.filter_nil]

/-- Raising the terms of a list to a power keeps their bases. -/
theorem bases_map_pow (ts : List Term) (n : Rat) : bases (ts.map fun t => t.pow n) = bases ts := by
  rw [bases, List.filter_map, List.map_map]
  rfl

/-- The bases of the canonical form are those with a positive total, and then those with a negative
one. -/
theorem bases_reduce (ts : List Term) :
    bases (reduce ts) =
      ((bases ts).filter fun b => 0 < total b ts) ++ (bases ts).filter fun b => total b ts < 0 := by
  have hcanonical : IsCanonical (reduce ts) := isCanonical_reduce ts
  have hfilter : (reduce ts).filter (fun t => !t.isNeutral) = reduce ts :=
    List.filter_eq_self.2 fun t ht => by simp [hcanonical.isNeutral_eq_false t ht]
  rw [bases, hfilter, eraseDups_of_nodup hcanonical.nodup, map_base_reduce]

/-- Among the bases whose totals have one sign, the canonical form keeps the order. -/
theorem filter_bases_reduce {ts : List Term} {p : String → Bool}
    (h : (∀ b ∈ bases ts, p b = true → 0 < total b ts) ∨
      ∀ b ∈ bases ts, p b = true → total b ts < 0) :
    (bases (reduce ts)).filter p = (bases ts).filter p := by
  have keep : ∀ q : String → Bool, (∀ b ∈ bases ts, p b = true → q b = true) →
      ((bases ts).filter fun b => p b && q b) = (bases ts).filter p := fun q hq =>
    List.filter_congr fun b hb => by
      rw [Bool.and_eq_left_iff_imp]
      exact hq b hb
  have drop : ∀ q : String → Bool, (∀ b ∈ bases ts, p b = true → q b = false) →
      ((bases ts).filter fun b => p b && q b) = [] := fun q hq =>
    List.filter_eq_nil_iff.2 fun b hb => by simpa using hq b hb
  rw [bases_reduce, List.filter_append, List.filter_filter, List.filter_filter]
  rcases h with hpos | hneg
  · rw [keep _ fun b hb hp => by simpa using hpos b hb hp,
      drop _ fun b hb hp => by simpa using (hpos b hb hp).le, List.append_nil]
  · rw [drop _ fun b hb hp => by simpa using (hneg b hb hp).le,
      keep _ fun b hb hp => by simpa using hneg b hb hp, List.nil_append]

/-! ## Canonical forms -/

/-- Lists with the same totals, which list the bases with totals of one sign in the same order, have
the same canonical form. -/
theorem reduce_congr {ts us : List Term}
    (htotal : ∀ base, base ≠ "1" → total base ts = total base us)
    (hpos : ((bases ts).filter fun b => 0 < total b us) =
      (bases us).filter fun b => 0 < total b us)
    (hneg : ((bases ts).filter fun b => total b us < 0) =
      (bases us).filter fun b => total b us < 0) :
    reduce ts = reduce us := by
  have hbase : ∀ b ∈ bases ts, total b ts = total b us := fun b hb =>
    htotal b (mem_bases_iff.1 hb).1
  have hgroup : ∀ p : String → Bool,
      ((bases ts).filter p).map (group ts) = ((bases ts).filter p).map (group us) := fun p =>
    List.map_congr_left fun b hb => by rw [group, group, hbase b (List.mem_filter.1 hb).1]
  have hposts : ((bases ts).filter fun b => 0 < total b ts) =
      (bases ts).filter fun b => 0 < total b us :=
    List.filter_congr fun b hb => by rw [hbase b hb]
  have hnegts : ((bases ts).filter fun b => total b ts < 0) =
      (bases ts).filter fun b => total b us < 0 :=
    List.filter_congr fun b hb => by rw [hbase b hb]
  rw [reduce_eq, reduce_eq, hgroup, hgroup, hposts, hnegts, hpos, hneg]

/-- Bases whose totals in the end of a list have one sign, if they are new there, stand in the same
order when the end is brought into canonical form. -/
theorem filter_bases_append_reduce {ts us : List Term} {p : String → Bool}
    (h : (∀ b ∈ bases us, b ∉ bases ts → p b = true → 0 < total b us) ∨
      ∀ b ∈ bases us, b ∉ bases ts → p b = true → total b us < 0) :
    (bases (ts ++ reduce us)).filter p = (bases (ts ++ us)).filter p := by
  rw [bases_append, bases_append, List.filter_append, List.filter_append, List.filter_filter,
    List.filter_filter, filter_bases_reduce]
  simp only [Bool.and_eq_true, decide_eq_true_eq]
  rcases h with hpos | hneg
  · exact .inl fun b hb hp => hpos b hb hp.2 hp.1
  · exact .inr fun b hb hp => hneg b hb hp.2 hp.1

/-- The end of a list may be brought into canonical form first. -/
theorem reduce_append_reduce (ts us : List Term) :
    reduce (ts ++ reduce us) = reduce (ts ++ us) := by
  have htotal : ∀ base, base ≠ "1" → total base (ts ++ reduce us) = total base (ts ++ us) := by
    intro base hbase
    rw [total_append, total_append, total_reduce hbase]
  -- a base that does not occur in the beginning has its whole total in the end
  have hnew : ∀ b ∈ bases us, b ∉ bases ts → total b (ts ++ us) = total b us := by
    intro b hb hts
    have hnotMem : b ∉ ts.map Term.base := fun hmem =>
      hts (mem_bases_iff.2 ⟨(mem_bases_iff.1 hb).1, hmem⟩)
    rw [total_append, total_of_notMem hnotMem, zero_add]
  refine reduce_congr htotal (filter_bases_append_reduce (.inl fun b hb hts hp => ?_))
    (filter_bases_append_reduce (.inr fun b hb hts hp => ?_))
  · rw [hnew b hb hts, decide_eq_true_eq] at hp
    exact hp
  · rw [hnew b hb hts, decide_eq_true_eq] at hp
    exact hp

/-- A list may be brought into canonical form before its terms are raised to a power. -/
theorem reduce_map_pow_reduce (ts : List Term) (n : Rat) :
    reduce ((reduce ts).map fun t => t.pow n) = reduce (ts.map fun t => t.pow n) := by
  have htotal : ∀ base, base ≠ "1" →
      total base ((reduce ts).map fun t => t.pow n) = total base (ts.map fun t => t.pow n) := by
    intro base hbase
    rw [total_map_pow, total_map_pow, total_reduce hbase]
  refine reduce_congr htotal ?_ ?_
  · rw [bases_map_pow, bases_map_pow]
    apply filter_bases_reduce
    simp only [total_map_pow, decide_eq_true_eq]
    rcases le_total 0 n with hn | hn
    · exact .inl fun b _ hp => pos_of_mul_pos_left hp hn
    · exact .inr fun b _ hp => neg_of_mul_pos_left hp hn
  · rw [bases_map_pow, bases_map_pow]
    apply filter_bases_reduce
    simp only [total_map_pow, decide_eq_true_eq]
    rcases le_total 0 n with hn | hn
    · exact .inr fun b _ hp => neg_of_mul_neg_left hp hn
    · exact .inl fun b _ hp => pos_of_mul_neg_left hp hn

/-- The beginning of a list may be brought into canonical form first up to the order. -/
theorem sorted_reduce_append (ts us : List Term) :
    sorted (reduce (reduce ts ++ us)) = sorted (reduce (ts ++ us)) := by
  rw [sorted_eq_sorted_iff, (isCanonical_reduce _).perm_iff (isCanonical_reduce _)]
  intro base hbase
  rw [total_reduce hbase, total_reduce hbase, total_append, total_append, total_reduce hbase]

/-- A base that turns positive only at the end of a list stands at its first place, unless the
beginning was brought into canonical form first. -/
theorem reduce_reduce_append_ne :
    reduce (reduce [⟨"s", -1⟩, ⟨"m", 1⟩] ++ [⟨"s", 2⟩]) ≠
      reduce ([⟨"s", -1⟩, ⟨"m", 1⟩] ++ [⟨"s", 2⟩]) := by
  decide +kernel

end Terms

namespace Expression

/-! ## Products -/

/-- A product with any terms has these terms behind those of the expression. -/
theorem mul_ofTerms (a : Expression) (ts : List Term) :
    a * ofTerms ts = ofTerms (a.terms ++ ts) :=
  congrArg mk (Terms.reduce_append_reduce a.terms ts)

/-- A ratio is the product with the reciprocal. -/
theorem div_eq_mul_inverse (a b : Expression) : a / b = a * b.inverse :=
  (mul_ofTerms a (b.terms.map Term.inverse)).symm

/-- The ratio of the empty product to an expression is the reciprocal. -/
theorem one_div (a : Expression) : one / a = a.inverse :=
  rfl

/-- The empty product on the left leaves a canonical expression as it is. -/
theorem one_mul_eq {a : Expression} (ha : Terms.IsCanonical a.terms) : one * a = a :=
  congrArg mk (Terms.reduce_of_isCanonical ha)

/-- The empty product on the right leaves a canonical expression as it is. -/
theorem mul_one_eq {a : Expression} (ha : Terms.IsCanonical a.terms) : a * one = a := by
  show ofTerms (a.terms ++ []) = a
  rw [List.append_nil]
  exact congrArg mk (Terms.reduce_of_isCanonical ha)

/-- The product with an operand has the terms of the operand behind those of the expression. -/
theorem multipliedBy_eq_ok {a : Expression} {x : Operand} {ts : List Term}
    (h : x.toTerms = .ok ts) : a.multipliedBy x = .ok (ofTerms (a.terms ++ ts)) := by
  by_cases hexp : ∃ e, x = .expression e
  · -- an expression passes through as it is
    obtain ⟨e, rfl⟩ := hexp
    cases h
    rfl
  · have hx : x.toExpression = .ok (ofTerms ts) := by
      rw [Operand.toExpression_eq_map fun e he => hexp ⟨e, he⟩, h]
      rfl
    rw [← mul_ofTerms]
    exact multipliedBy_eq_ok_iff.2 ⟨_, hx, rfl⟩

/-! ## Powers -/

/-- A power of any terms has the powers of the terms, unless the exponent is zero. -/
theorem pow_ofTerms (ts : List Term) {n : Rat} (hn : n ≠ 0) :
    (ofTerms ts).pow n = ofTerms (ts.map fun t => t.pow n) := by
  rw [pow_of_ne_zero _ hn]
  exact congrArg mk (Terms.reduce_map_pow_reduce ts n)

/-- The powers of the empty product are empty. -/
theorem one_pow_eq (n : Rat) : one.pow n = one := by
  by_cases hn : n = 0
  · rw [hn, pow_zero]
  · rw [pow_of_ne_zero one hn]
    rfl

/-- A reciprocal is the power with exponent minus one. -/
theorem inverse_eq_pow (a : Expression) : a.inverse = a.pow (-1) := by
  have hterm : Term.inverse = fun t => t.pow (-1) := by
    funext t
    rw [Term.inverse, Term.pow, mul_neg, mul_one]
  rw [pow_of_ne_zero a (by decide), inverse, hterm]

/-- The power with exponent one leaves a canonical expression as it is. -/
theorem pow_one_eq {a : Expression} (ha : Terms.IsCanonical a.terms) : a.pow 1 = a := by
  have hterm : (fun t : Term => t.pow 1) = id := by
    funext t
    rw [Term.pow, mul_one]
    rfl
  rw [pow_of_ne_zero a (by decide), hterm, List.map_id]
  exact congrArg mk (Terms.reduce_of_isCanonical ha)

/-- The power of a power is the power with the product of the exponents. -/
theorem pow_pow_eq (a : Expression) (p q : Rat) : (a.pow p).pow q = a.pow (p * q) := by
  by_cases hp : p = 0
  · rw [hp, zero_mul, pow_zero, one_pow_eq]
  · by_cases hq : q = 0
    · rw [hq, mul_zero, pow_zero, pow_zero]
    · have hterm : (fun t : Term => (t.pow p).pow q) = fun t => t.pow (p * q) := by
        funext t
        show Term.mk t.base (t.exponent * p * q) = Term.mk t.base (t.exponent * (p * q))
        rw [mul_assoc]
      rw [pow_of_ne_zero a hp, pow_ofTerms _ hq, pow_of_ne_zero a (mul_ne_zero hp hq),
        List.map_map, ← hterm]
      rfl

/-- The reciprocal of the reciprocal of a canonical expression is the expression itself. -/
theorem inverse_inverse_eq {a : Expression} (ha : Terms.IsCanonical a.terms) :
    a.inverse.inverse = a := by
  rw [inverse_eq_pow, inverse_eq_pow, pow_pow_eq, neg_mul_neg, mul_one, pow_one_eq ha]

end Expression

/-- An operand that converts has terms. -/
theorem Operand.exists_toTerms_of_toExpression {x : Operand} {e : Expression}
    (h : x.toExpression = .ok e) : ∃ ts, x.toTerms = .ok ts := by
  by_cases hexp : ∃ d, x = .expression d
  · obtain ⟨d, rfl⟩ := hexp
    exact ⟨d.terms, rfl⟩
  · rw [toExpression_eq_map fun d hd => hexp ⟨d, hd⟩] at h
    obtain ⟨ts, hts, -⟩ := map_eq_ok_iff.1 h
    exact ⟨ts, hts⟩

open Expression

/-- The end of a list may be brought into canonical form first, with the same terms in the same
order; the beginning may be, too, but then the order can differ. So the product with an operand has
the terms of the operand behind those of the expression, and the laws of reciprocals, of powers and
of the empty product hold of the expressions that a caller can obtain, and not only up to `==`. -/
theorem identities_of_obtainable :
    (∀ ts us : List Term,
      Terms.reduce (ts ++ Terms.reduce us) = Terms.reduce (ts ++ us) ∧
      Terms.sorted (Terms.reduce (Terms.reduce ts ++ us)) =
        Terms.sorted (Terms.reduce (ts ++ us))) ∧
    (∃ ts us : List Term, Terms.reduce (Terms.reduce ts ++ us) ≠ Terms.reduce (ts ++ us)) ∧
    ∀ a : Expression, Obtainable (.expression a) →
      (∀ x e, Operand.toExpression x = .ok e → ∃ ts, x.toTerms = .ok ts ∧
        a.multipliedBy x = .ok ⟨Terms.reduce (a.terms ++ ts)⟩) ∧
      (∀ b, a / b = a * b.inverse) ∧
      a.inverse = one / a ∧ one / a = a.pow (-1) ∧ a.inverse.inverse = a ∧
      (∀ p q : Rat, (a.pow p).pow q = a.pow (p * q)) ∧
      a.pow 1 = a ∧ a * one = a ∧ one * a = a := by
  refine ⟨fun ts us => ?_, ⟨_, _, Terms.reduce_reduce_append_ne⟩, fun a ha => ?_⟩
  · exact ⟨Terms.reduce_append_reduce ts us, Terms.sorted_reduce_append ts us⟩
  · have hcanonical : Terms.IsCanonical a.terms := ha.isSound.isCanonical
    refine ⟨fun x e hx => ?_, div_eq_mul_inverse a, (one_div a).symm, inverse_eq_pow a,
      inverse_inverse_eq hcanonical, pow_pow_eq a, pow_one_eq hcanonical, mul_one_eq hcanonical,
      one_mul_eq hcanonical⟩
    obtain ⟨ts, hts⟩ := Operand.exists_toTerms_of_toExpression hx
    exact ⟨ts, hts, multipliedBy_eq_ok hts⟩

/-- A speed times a text: both bases change their sign, and each keeps its place among the bases of
the new sign. The roots of the reciprocal square are the reciprocal. -/
theorem identities_of_obtainable_speed :
    Obtainable (.expression (ofTerms [⟨"m", 1⟩, ⟨"s", -1⟩])) ∧
    (ofTerms [⟨"m", 1⟩, ⟨"s", -1⟩]).multipliedBy (.text "m / m^4 * s^2") =
      .ok ⟨[⟨"s", 1⟩, ⟨"m", -2⟩]⟩ ∧
    ((ofTerms [⟨"m", 1⟩, ⟨"s", -1⟩]).pow (-2)).pow (1/2) =
      (ofTerms [⟨"m", 1⟩, ⟨"s", -1⟩]).inverse := by
  have hspeed : Obtainable (.expression (ofTerms [⟨"m", 1⟩, ⟨"s", -1⟩])) := .ofTerms (by decide)
  have hread : Terms.read "m / m^4 * s^2" = .ok [⟨"m", 1⟩, ⟨"m", -4⟩, ⟨"s", 2⟩] := by
    decide +kernel
  have hreduce : Terms.reduce ((ofTerms [⟨"m", 1⟩, ⟨"s", -1⟩]).terms ++
      [⟨"m", 1⟩, ⟨"m", -4⟩, ⟨"s", 2⟩]) = [⟨"s", 1⟩, ⟨"m", -2⟩] := by decide +kernel
  have hexponent : (-2 * (1/2) : Rat) = -1 := by decide +kernel
  obtain ⟨-, -, hlaws⟩ := identities_of_obtainable
  obtain ⟨hproduct, -, hone, hinverse, -, hpow, -⟩ := hlaws _ hspeed
  obtain ⟨ts, hts, hvalue⟩ := hproduct _ _ (Operand.toExpression_text_of_read hread)
  obtain rfl : _ = ts := Except.ok.inj (hread.symm.trans hts)
  rw [hreduce] at hvalue
  exact ⟨hspeed, hvalue, by rw [hpow, hexponent, hone, hinverse]⟩

end UnitAlgebra
