import Mathlib

/-!
# Digit lists, most significant digit first

`ofDigitsBE b ds` is the number with the digits `ds` in base `b`, written as on paper.
-/

namespace Andl

open List

open Nat (ofDigits)

variable {b : ℕ} {as bs ds : List ℕ}

/-- The number with the digits `ds`, the most significant one first. -/
def ofDigitsBE (b : ℕ) (ds : List ℕ) : ℕ := ofDigits b ds.reverse

@[simp] theorem ofDigitsBE_nil (b : ℕ) : ofDigitsBE b [] = 0 := rfl

@[simp] theorem ofDigitsBE_singleton (b d : ℕ) : ofDigitsBE b [d] = d := by
  simp [ofDigitsBE]

theorem ofDigitsBE_append (b : ℕ) (as bs : List ℕ) :
    ofDigitsBE b (as ++ bs) = ofDigitsBE b as * b ^ bs.length + ofDigitsBE b bs := by
  unfold ofDigitsBE
  rw [reverse_append, Nat.ofDigits_append, length_reverse, Nat.add_comm, Nat.mul_comm]

theorem ofDigitsBE_cons (b d : ℕ) (ds : List ℕ) :
    ofDigitsBE b (d :: ds) = d * b ^ ds.length + ofDigitsBE b ds := by
  rw [← singleton_append, ofDigitsBE_append, ofDigitsBE_singleton]

@[simp] theorem ofDigitsBE_replicate_zero (b n : ℕ) : ofDigitsBE b (List.replicate n 0) = 0 := by
  rw [ofDigitsBE, reverse_replicate, Nat.ofDigits_replicate_zero]

/-- All digits being the largest one, adding one gives a power of the base. -/
theorem ofDigitsBE_replicate_pred (hb : 0 < b) (n : ℕ) :
    ofDigitsBE b (List.replicate n (b - 1)) + 1 = b ^ n := by
  induction n with
  | zero => simp
  | succ n ih =>
    rw [replicate_succ, ofDigitsBE_cons, length_replicate, Nat.add_assoc, ih, pow_succ]
    obtain ⟨c, rfl⟩ := Nat.exists_eq_succ_of_ne_zero (Nat.ne_of_gt hb)
    simp only [Nat.succ_eq_add_one, Nat.add_sub_cancel]
    ring

theorem ofDigitsBE_carry (hb : 0 < b) (as : List ℕ) (d n : ℕ) :
    ofDigitsBE b (as ++ (d + 1) :: List.replicate n 0) =
      ofDigitsBE b (as ++ d :: List.replicate n (b - 1)) + 1 := by
  have hrep := ofDigitsBE_replicate_pred hb n
  simp only [ofDigitsBE_append, ofDigitsBE_cons, ofDigitsBE_replicate_zero, length_cons,
    length_replicate]
  rw [Nat.add_mul, ← hrep]
  ring

theorem ofDigitsBE_lt (hb : 1 < b) (h : ∀ d ∈ ds, d < b) : ofDigitsBE b ds < b ^ ds.length := by
  rw [← length_reverse]
  apply Nat.ofDigits_lt_base_pow_length hb
  intro d hd
  exact h d (mem_reverse.mp hd)

theorem ofDigitsBE_inj (hb : 1 < b) (hlen : as.length = bs.length) (ha : ∀ d ∈ as, d < b)
    (hbs : ∀ d ∈ bs, d < b) (h : ofDigitsBE b as = ofDigitsBE b bs) : as = bs := by
  apply reverse_injective
  refine Nat.ofDigits_inj_of_len_eq hb (by simpa using hlen) ?_ ?_ h
  · intro d hd
    exact ha d (mem_reverse.mp hd)
  · intro d hd
    exact hbs d (mem_reverse.mp hd)

/-- The first digit gives a lower bound. -/
theorem pow_le_ofDigitsBE {d : ℕ} (hd : d ≠ 0) : b ^ ds.length ≤ ofDigitsBE b (d :: ds) := by
  rw [ofDigitsBE_cons]
  have hmul : 1 * b ^ ds.length ≤ d * b ^ ds.length :=
    Nat.mul_le_mul_right _ (Nat.one_le_iff_ne_zero.mpr hd)
  omega

theorem ofDigitsBE_pos_of_getLast (h : ds ≠ []) (hlast : ds.getLast h ≠ 0) :
    0 < ofDigitsBE b ds := by
  rw [← dropLast_append_getLast h, ofDigitsBE_append, ofDigitsBE_singleton]
  omega

/-- The last digit not being zero, the base does not divide the number. -/
theorem not_dvd_ofDigitsBE (h : ds ≠ []) (hlast : ds.getLast h ≠ 0) (hlt : ds.getLast h < b) :
    ¬ b ∣ ofDigitsBE b ds := by
  rw [← dropLast_append_getLast h, ofDigitsBE_append, ofDigitsBE_singleton,
    length_singleton, pow_one, Nat.dvd_add_right (Dvd.intro_left _ rfl)]
  exact fun hdvd => hlast (Nat.eq_zero_of_dvd_of_lt hdvd hlt)

/-- Adding to one digit. -/
theorem ofDigitsBE_set_add (b : ℕ) {i : ℕ} (hi : i < ds.length) (v : ℕ) :
    ofDigitsBE b (ds.set i (ds.getD i 0 + v)) = ofDigitsBE b ds + v * b ^ (ds.length - 1 - i) := by
  induction ds generalizing i with
  | nil => simp at hi
  | cons d ds ih =>
    cases i with
    | zero =>
      simp only [set_cons_zero, getD_cons_zero, ofDigitsBE_cons, length_cons]
      rw [Nat.add_sub_cancel, Nat.sub_zero]
      ring
    | succ i =>
      simp only [set_cons_succ, getD_cons_succ, ofDigitsBE_cons, length_set,
        length_cons]
      rw [ih (by simpa using hi), Nat.add_sub_cancel, ← Nat.add_assoc,
        show ds.length - 1 - i = ds.length - (i + 1) by omega]

/-! ### Zeros on both ends -/

theorem takeWhile_zero_eq (ds : List ℕ) :
    ds.takeWhile (· == 0) = List.replicate (ds.takeWhile (· == 0)).length 0 := by
  rw [eq_replicate_iff]
  refine ⟨rfl, ?_⟩
  intro d hd
  simpa using mem_takeWhile_imp hd

theorem rtakeWhile_zero_eq (ds : List ℕ) :
    ds.rtakeWhile (· == 0) = List.replicate (ds.rtakeWhile (· == 0)).length 0 := by
  rw [eq_replicate_iff]
  refine ⟨rfl, ?_⟩
  intro d hd
  simpa using mem_rtakeWhile_imp hd

/-- The digits without the zeros at the end. -/
theorem rdropWhile_append_zeros (ds : List ℕ) :
    ds.rdropWhile (· == 0) ++ List.replicate (ds.rtakeWhile (· == 0)).length 0 = ds := by
  rw [← rtakeWhile_zero_eq, rdropWhile_append_rtakeWhile]

theorem getLast_rdropWhile_ne_zero (h : ds.rdropWhile (· == 0) ≠ []) :
    (ds.rdropWhile (· == 0)).getLast h ≠ 0 := by
  simpa using rdropWhile_last_not (p := (· == 0)) ds h

theorem rdropWhile_cons_ne_nil {c : ℕ} (hc : c ≠ 0) (cs : List ℕ) :
    (c :: cs).rdropWhile (· == 0) ≠ [] := by
  intro hnil
  have hzero := rdropWhile_eq_nil_iff.mp hnil c mem_cons_self
  exact hc (by simpa using hzero)

theorem rdropWhile_cons_of_ne_nil (d : ℕ) (h : ds.rdropWhile (· == 0) ≠ []) :
    (d :: ds).rdropWhile (· == 0) = d :: ds.rdropWhile (· == 0) := by
  have hne : ds.reverse.dropWhile (· == 0) ≠ [] := fun hnil => h (by simp [List.rdropWhile, hnil])
  rw [List.rdropWhile, reverse_cons, dropWhile_append, if_neg (by simpa using hne),
    reverse_append]
  rfl

/-- The digits without the zeros in front and at the end. -/
theorem exists_strip (hne : ofDigitsBE b ds ≠ 0) :
    ∃ c cs n, (ds.dropWhile (· == 0)).rdropWhile (· == 0) = c :: cs ∧ c ≠ 0 ∧
      (c :: cs).getLast (cons_ne_nil c cs) ≠ 0 ∧
      ds = List.replicate (ds.takeWhile (· == 0)).length 0 ++ (c :: cs ++ List.replicate n 0) := by
  have hfront : ds = List.replicate (ds.takeWhile (· == 0)).length 0 ++ ds.dropWhile (· == 0) := by
    conv_lhs => rw [← takeWhile_append_dropWhile (p := (· == 0)) (l := ds)]
    rw [← takeWhile_zero_eq]
  have hback := (rdropWhile_append_zeros (ds.dropWhile (· == 0))).symm
  cases hstrip : (ds.dropWhile (· == 0)).rdropWhile (· == 0) with
  | nil =>
    -- without a digit left, the number is zero
    rw [hstrip, nil_append] at hback
    rw [hback, replicate_append_replicate] at hfront
    rw [hfront] at hne
    simp at hne
  | cons c cs =>
    rw [hstrip] at hback
    generalize ((ds.dropWhile (· == 0)).rtakeWhile (· == 0)).length = n at hback
    refine ⟨c, cs, n, rfl, ?_, ?_, hback ▸ hfront⟩
    · have hdrop : ds.dropWhile (· == 0) ≠ [] := by rw [hback]; simp
      have hhead := head_dropWhile_not (p := (· == 0)) hdrop
      have hcons : (ds.dropWhile (· == 0)).head hdrop = c := by simp only [hback]; rfl
      rw [hcons] at hhead
      simpa using hhead
    · have hne' : (ds.dropWhile (· == 0)).rdropWhile (· == 0) ≠ [] := by rw [hstrip]; simp
      have hlast := getLast_rdropWhile_ne_zero hne'
      simpa only [hstrip] using hlast

theorem dropWhile_zero_eq_nil (hb : 0 < b) (h : ofDigitsBE b ds = 0) :
    ds.dropWhile (· == 0) = [] := by
  induction ds with
  | nil => rfl
  | cons d ds ih =>
    have hd : d = 0 := by
      by_contra hd
      have hle : b ^ ds.length ≤ ofDigitsBE b (d :: ds) := pow_le_ofDigitsBE hd
      have hpos := Nat.pow_pos (n := ds.length) hb
      omega
    rw [hd, ofDigitsBE_cons, zero_mul, zero_add] at h
    rw [hd, dropWhile_cons_of_pos (by rfl)]
    exact ih h

/-! ### Digits followed by zeros -/

theorem takeD_add {α : Type*} (l : List α) (m n : ℕ) (a : α) :
    l.takeD (m + n) a = l.takeD m a ++ (l.drop m).takeD n a := by
  induction m generalizing l with
  | zero => simp
  | succ m ih =>
    rw [Nat.succ_add, takeD_succ, takeD_succ, ih, cons_append, drop_tail]

theorem takeD_of_length_le {α : Type*} {l : List α} {n : ℕ} (h : l.length ≤ n) (a : α) :
    l.takeD n a = l ++ List.replicate (n - l.length) a := by
  obtain ⟨k, rfl⟩ := Nat.exists_eq_add_of_le h
  rw [takeD_add, takeD_eq_take a (le_refl _), take_length, drop_length,
    takeD_nil, Nat.add_sub_cancel_left]

theorem takeD_lt {n c : ℕ} (hb : 0 < b) (h : ∀ d ∈ ds, d < b) (hc : c ∈ ds.takeD n 0) : c < b := by
  rcases Nat.le_total n ds.length with hle | hle
  · rw [takeD_eq_take 0 hle] at hc
    exact h c (mem_of_mem_take hc)
  · rw [takeD_of_length_le hle] at hc
    rcases mem_append.mp hc with hc | hc
    · exact h c hc
    · rw [eq_of_mem_replicate hc]
      exact hb

/-! ### Rounding at the point -/

/-- **Cutting off** the digits after the point rounds down. -/
theorem floor_ofDigitsBE (hb : 1 < b) (hbs : ∀ d ∈ bs, d < b) :
    ⌊(ofDigitsBE b (as ++ bs) : ℚ) / b ^ bs.length⌋ = ofDigitsBE b as := by
  have hlt : (ofDigitsBE b bs : ℚ) < b ^ bs.length := by exact_mod_cast ofDigitsBE_lt hb hbs
  have hpos : (0 : ℚ) < b ^ bs.length := by positivity
  rw [Int.floor_eq_iff, ofDigitsBE_append]
  push_cast
  rw [le_div_iff₀ hpos, div_lt_iff₀ hpos]
  constructor <;> linarith

/-- What was cut off being non-zero, adding one rounds up. -/
theorem ceil_ofDigitsBE (hb : 1 < b) (hbs : ∀ d ∈ bs, d < b) (hpos : 0 < ofDigitsBE b bs) :
    ⌈(ofDigitsBE b (as ++ bs) : ℚ) / b ^ bs.length⌉ = ofDigitsBE b as + 1 := by
  have hlt : (ofDigitsBE b bs : ℚ) < b ^ bs.length := by exact_mod_cast ofDigitsBE_lt hb hbs
  have hpow : (0 : ℚ) < b ^ bs.length := by positivity
  have hpos' : (0 : ℚ) < ofDigitsBE b bs := by exact_mod_cast hpos
  rw [Int.ceil_eq_iff, ofDigitsBE_append]
  push_cast
  rw [lt_div_iff₀ hpow, div_le_iff₀ hpow]
  constructor <;> linarith

/-- The first `n` digits after the point, of a number below one. -/
theorem floor_ofDigitsBE_takeD (hb : 1 < b) (h : ∀ d ∈ ds, d < b) (n : ℕ) :
    ⌊(ofDigitsBE b ds : ℚ) / b ^ ds.length * b ^ n⌋ = ofDigitsBE b (ds.takeD n 0) := by
  have hne : (b : ℚ) ≠ 0 := by
    norm_cast
    omega
  rcases Nat.le_total n ds.length with hle | hle
  · have hlen : (ds.drop n).length = ds.length - n := length_drop
    have hscale : (ofDigitsBE b ds : ℚ) / b ^ ds.length * b ^ n =
        (ofDigitsBE b (ds.take n ++ ds.drop n) : ℚ) / b ^ (ds.drop n).length := by
      rw [take_append_drop, hlen, pow_sub₀ _ hne hle]
      field_simp
    rw [hscale, takeD_eq_take 0 hle]
    exact floor_ofDigitsBE hb fun d hd => h d (mem_of_mem_drop hd)
  · have hscale : (ofDigitsBE b ds : ℚ) / b ^ ds.length * b ^ n =
        ((ofDigitsBE b ds * b ^ (n - ds.length) : ℕ) : ℚ) := by
      push_cast
      rw [pow_sub₀ _ hne hle]
      field_simp
    rw [hscale, Int.floor_natCast, takeD_of_length_le hle, ofDigitsBE_append,
      ofDigitsBE_replicate_zero, length_replicate, add_zero]

end Andl
