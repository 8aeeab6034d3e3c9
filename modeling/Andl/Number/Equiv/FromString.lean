import Andl.Number.FromString
import Andl.Number.Equiv.Round

/-!
# Reading a decimal literal
-/

namespace Andl.Number

open List

/-- The digit that a character stands for. -/
def digitVal (c : Char) : ℕ := c.toNat - 48

variable {c : Char} {str pre s : List Char} {step : ℕ}

theorem isDigitChar_iff : isDigitChar c = true ↔ 48 ≤ c.toNat ∧ c.toNat ≤ 57 := by
  unfold isDigitChar
  rw [Bool.and_eq_true, decide_eq_true_eq, decide_eq_true_eq, Char.le_def, Char.le_def,
    UInt32.le_iff_toNat_le, UInt32.le_iff_toNat_le]
  exact Iff.rfl

theorem digitVal_lt (h : isDigitChar c = true) : digitVal c < 10 := by
  have := isDigitChar_iff.mp h
  unfold digitVal
  omega

theorem digitVal_eq_zero_iff (h : isDigitChar c = true) : digitVal c = 0 ↔ c = '0' := by
  have hrange := isDigitChar_iff.mp h
  constructor
  · intro hzero
    unfold digitVal at hzero
    apply Char.ext
    apply UInt32.toNat_inj.mp
    show c.toNat = 48
    omega
  · rintro rfl
    rfl

/-- A decimal literal. -/
structure DecimalLiteral where
  spaces : List Char
  sign : Option Sign
  integer : List Char
  fraction : Option (List Char)
  isspace_spaces : ∀ c ∈ spaces, isspace c = true
  isDigitChar_integer : ∀ c ∈ integer, isDigitChar c = true
  isDigitChar_fraction : ∀ c ∈ fraction.getD [], isDigitChar c = true
  digits_ne_nil : integer ++ fraction.getD [] ≠ []

namespace DecimalLiteral

variable (l : DecimalLiteral)

/-- The sign as it is written. -/
def signText : List Char :=
  match l.sign with
  | none => []
  | some .positive => ['+']
  | some .negative => ['-']

/-- The point and the digits after it, as they are written. -/
def fractionText : List Char :=
  match l.fraction with
  | none => []
  | some ds => '.' :: ds

/-- The literal as it is written. -/
def text : List Char := l.spaces ++ l.signText ++ (l.integer ++ l.fractionText)

/-- The sign that the number has. -/
def numberSign : Sign := l.sign.getD .positive

/-- The digits after the point. -/
def decimals : List Char := l.fraction.getD []

/-- The digits before the point, without the zeros in front. -/
def leading : List Char := l.integer.dropWhile (· == '0')

/-- The absolute value. -/
def magnitude : ℚ :=
  ofDigitsBE 10 ((l.integer ++ l.decimals).map digitVal) / 10 ^ l.decimals.length

/-- The value. -/
def value : ℚ := l.numberSign.toRat * l.magnitude

/-! ### The scan -/

theorem isDigitChar_leading : ∀ c ∈ l.leading, isDigitChar c = true :=
  fun c hc => l.isDigitChar_integer c (dropWhile_sublist _ |>.mem hc)

end DecimalLiteral

theorem takeWhile_append_of_head {α : Type*} {p : α → Bool} {ws post : List α}
    (hws : ∀ c ∈ ws, p c = true) (hpost : ∀ c ∈ post.head?, p c = false) :
    (ws ++ post).takeWhile p = ws := by
  rw [takeWhile_append_of_pos hws]
  cases post with
  | nil => simp
  | cons c cs => rw [takeWhile_cons_of_neg (by simp [hpost c rfl]), append_nil]

/-- A scan goes to the first character that does not belong. -/
theorem skip_eq {p : Char → Bool} {ws post : List Char} (hstr : str = pre ++ ws ++ post)
    (hws : ∀ c ∈ ws, p c = true) (hpost : ∀ c ∈ post.head?, p c = false) :
    skip p str pre.length str.length = (pre ++ ws).length := by
  rw [skip, take_length, hstr, append_assoc, drop_left,
    takeWhile_append_of_head hws hpost, length_append]

theorem skipBack_eq {p : Char → Bool} {rest : List Char} (hstr : str = pre ++ rest)
    (hrest : ∀ c ∈ rest, p c = false) : skipBack p str pre.length str.length = str.length := by
  have hnil : rest.rtakeWhile p = [] := by
    rw [rtakeWhile_eq_nil_iff]
    intro hne
    rw [hrest _ (getLast_mem hne)]
    decide
  rw [skipBack, take_length, hstr, drop_left, hnil, length_nil, Nat.sub_zero]

theorem slice_eq {ws post : List Char} (hstr : str = pre ++ ws ++ post) :
    slice str pre.length (pre ++ ws).length = ws := by
  rw [slice, Int.toNat_natCast, Int.toNat_natCast, hstr, take_left, drop_left]

theorem slice_of_le {ptr fin : ℤ} (h : fin ≤ ptr) : slice str ptr fin = [] := by
  rw [slice, drop_eq_nil_iff, length_take]
  omega

theorem length_lt_append {as bs : List Char} : as.length < (as ++ bs).length ↔ bs ≠ [] := by
  rw [length_append, Nat.lt_add_right_iff_pos, length_pos_iff]

/-! ### Zeros in front -/

theorem dropWhile_zero_head (s : List Char) : ∀ c ∈ (s.dropWhile (· == '0')).head?, c ≠ '0' := by
  intro c hc
  have hne : s.dropWhile (· == '0') ≠ [] := by
    intro hnil
    rw [hnil] at hc
    simp at hc
  have hhead := head_dropWhile_not (p := (· == '0')) hne
  rw [head?_eq_some_head hne, Option.mem_some_iff] at hc
  rw [hc] at hhead
  simpa using hhead

theorem drop_length_takeWhile (s : List Char) :
    s.drop (s.takeWhile (· == '0')).length = s.dropWhile (· == '0') := by
  have hsplit := takeWhile_append_dropWhile (p := (· == '0')) (l := s)
  generalize s.takeWhile (· == '0') = zs at hsplit ⊢
  rw [← hsplit, drop_left, hsplit]

/-- Zeros in front do not count. -/
theorem ofDigitsBE_dropWhile_zero (s t : List Char) :
    ofDigitsBE 10 ((s ++ t).map digitVal) =
      ofDigitsBE 10 ((s.dropWhile (· == '0') ++ t).map digitVal) := by
  induction s with
  | nil => rfl
  | cons c s ih =>
    by_cases hc : c = '0'
    · rw [hc, dropWhile_cons_of_pos (by rfl), ← ih, cons_append, map_cons,
        ofDigitsBE_cons]
      simp [digitVal]
    · rw [dropWhile_cons_of_neg (by simpa using hc)]

/-- What a scan without a warning has found. -/
structure Scanned (str : List Char) (r : PointRange) (negative : Bool)
    (before after : List Char) : Prop where
  negative_eq : r.negative = negative
  warning_eq : r.warning = none
  before_eq : slice str r.startIdx r.floatingPoint = before
  before_iff : r.startIdx < r.floatingPoint ↔ before ≠ []
  after_eq : slice str (r.floatingPoint + 1) r.endIdx = after
  after_iff : r.floatingPoint + 1 < r.endIdx ↔ after ≠ []

namespace DecimalLiteral

variable (l : DecimalLiteral)

theorem takeWhile_append_leading : l.integer.takeWhile (· == '0') ++ l.leading = l.integer :=
  takeWhile_append_dropWhile

/-- The scan behind the sign. -/
theorem findDigits_text {pre : List Char} {negative : Bool}
    (hstr : l.text = pre ++ (l.integer ++ l.fractionText)) :
    Scanned l.text (findDigits l.text negative pre.length l.text.length) negative l.leading
      l.decimals := by
  obtain ⟨zs, hzs⟩ : ∃ zs, zs = l.integer.takeWhile (· == '0') := ⟨_, rfl⟩
  have hinteger : l.integer = zs ++ l.leading := by
    rw [hzs]
    exact l.takeWhile_append_leading.symm
  have hzero : ∀ c ∈ zs, (c == '0') = true := by
    rw [hzs]
    exact fun c hc => mem_takeWhile_imp (p := (· == '0')) hc
  have hpoint : ∀ c ∈ l.fractionText.head?, c = '.' := by
    unfold fractionText
    split <;> simp
  have hafter : ∀ c ∈ (l.leading ++ l.fractionText).head?, (c == '0') = false := by
    intro c hc
    cases hlead : l.leading with
    | nil =>
      rw [hlead, nil_append] at hc
      rw [hpoint c hc]
      decide
    | cons d ds =>
      have hne : ∀ c ∈ l.leading.head?, c ≠ '0' := dropWhile_zero_head l.integer
      have hc := hne c (by simpa [hlead] using hc)
      simpa using hc
  have hstr1 : l.text = pre ++ zs ++ (l.leading ++ l.fractionText) := by
    rw [hstr, hinteger]
    simp
  have hstr2 : l.text = pre ++ zs ++ l.leading ++ l.fractionText := by
    rw [hstr1]
    simp
  have hptr := skip_eq hstr1 hzero hafter
  have hskip := skip_eq (p := isDigitChar) hstr2 l.isDigitChar_leading fun c hc => by
    rw [hpoint c hc]
    decide
  unfold findDigits
  simp only [hptr, hskip]
  by_cases hend : (pre ++ zs).length = l.text.length
  · -- only zeros
    have hnil : l.leading ++ l.fractionText = [] := by
      have hlen := congrArg List.length hstr1
      rw [length_append, hend] at hlen
      exact length_eq_zero_iff.mp (by omega)
    obtain ⟨hlead, hfrac⟩ := append_eq_nil_iff.mp hnil
    have hdecimals : l.decimals = [] := by
      unfold fractionText at hfrac
      unfold decimals
      split at hfrac
      · next h => rw [h, Option.getD_none]
      · simp at hfrac
    rw [if_pos hend, hlead, hdecimals]
    exact ⟨rfl, rfl, slice_of_le (le_refl _), by simp, slice_of_le (by simp), by simp⟩
  · rw [if_neg hend]
    cases hfraction : l.fraction with
    | none =>
      have hfrac : l.fractionText = [] := by rw [fractionText, hfraction]
      have hdecimals : l.decimals = [] := by rw [decimals, hfraction, Option.getD_none]
      rw [hfrac, append_nil] at hstr2
      have hlen : (pre ++ zs ++ l.leading).length = l.text.length := by rw [hstr2]
      rw [if_neg (fun h => h.1 hlen), if_neg (fun h => h hlen), hdecimals]
      refine ⟨rfl, rfl, ?_, ?_, slice_of_le (by simp), by simp⟩
      · have hstr3 : l.text = pre ++ zs ++ l.leading ++ [] := by rw [hstr2, append_nil]
        exact slice_eq hstr3
      · exact Nat.cast_lt.trans length_lt_append
    | some ds =>
      have hfrac : l.fractionText = '.' :: ds := by rw [fractionText, hfraction]
      have hdecimals : l.decimals = ds := by rw [decimals, hfraction, Option.getD_some]
      rw [hfrac] at hstr2
      have hstr3 : l.text = pre ++ zs ++ l.leading ++ ['.'] ++ ds ++ [] := by
        rw [hstr2]
        simp
      have hlt : (pre ++ zs ++ l.leading).length < l.text.length := by
        have hlen := congrArg List.length hstr2
        rw [length_append, length_cons] at hlen
        omega
      have hdot : l.text.getD (pre ++ zs ++ l.leading).length ' ' = '.' := by
        rw [hstr2, getD_append_right _ _ _ _ (le_refl _), Nat.sub_self, getD_cons_zero]
      have hlast := skip_eq (p := isDigitChar) hstr3 (by rw [← hdecimals]; exact
        l.isDigitChar_fraction) (by simp)
      have hfin : (pre ++ zs ++ l.leading ++ ['.'] ++ ds).length = l.text.length := by
        rw [hstr3, append_nil]
      have hsucc : (pre ++ zs ++ l.leading).length + 1 =
          (pre ++ zs ++ l.leading ++ ['.']).length := by
        simp only [length_append, length_singleton]
      rw [if_pos ⟨hlt.ne, hdot⟩, hsucc, hlast, hdecimals, if_neg (fun h => h hfin)]
      refine ⟨rfl, rfl, slice_eq hstr2, ?_, ?_, ?_⟩
      · exact Nat.cast_lt.trans length_lt_append
      · have hslice := slice_eq hstr3
        rwa [← hsucc] at hslice
      · rw [← Nat.cast_succ, Nat.succ_eq_add_one, hsucc, Nat.cast_lt]
        exact length_lt_append

theorem not_isspace_of_isDigitChar {c : Char} (h : isDigitChar c = true) : isspace c = false := by
  have hrange := isDigitChar_iff.mp h
  unfold isspace
  rw [Bool.or_eq_false_iff, beq_eq_false_iff_ne]
  constructor
  · rintro rfl
    exact absurd hrange (by decide)
  · rw [Bool.and_eq_false_iff]
    right
    rw [decide_eq_false_iff_not, Char.le_def, UInt32.le_iff_toNat_le]
    show ¬ c.toNat ≤ 13
    omega

/-- The characters behind the sign. -/
theorem mem_body {c : Char} (hc : c ∈ l.integer ++ l.fractionText) :
    isDigitChar c = true ∨ c = '.' := by
  rcases mem_append.mp hc with hc | hc
  · exact .inl (l.isDigitChar_integer c hc)
  · have hfrac := l.isDigitChar_fraction
    unfold fractionText at hc
    split at hc
    · simp at hc
    · next ds hds =>
      rw [hds, Option.getD_some] at hfrac
      rcases mem_cons.mp hc with rfl | hc
      · exact .inr rfl
      · exact .inl (hfrac c hc)

theorem body_ne_nil : l.integer ++ l.fractionText ≠ [] := by
  have hne := l.digits_ne_nil
  unfold fractionText
  cases hfraction : l.fraction with
  | none => simpa [hfraction] using hne
  | some ds => simp

/-- **The scan** finds the sign and the digits before and after the point. -/
theorem findPointRange_text :
    ∃ r, findPointRange l.text = .ok r ∧
      Scanned l.text r (l.numberSign == .negative) l.leading l.decimals := by
  have hbody (c : Char) (hc : c ∈ l.integer ++ l.fractionText) : isspace c = false := by
    rcases l.mem_body hc with hc | rfl
    · exact not_isspace_of_isDigitChar hc
    · decide
  have hrest : ∀ c ∈ l.signText ++ (l.integer ++ l.fractionText), isspace c = false := by
    intro c hc
    rcases mem_append.mp hc with hc | hc
    · unfold signText at hc
      split at hc <;> simp at hc <;> subst hc <;> decide
    · exact hbody c hc
  have hstr : l.text = [] ++ l.spaces ++ (l.signText ++ (l.integer ++ l.fractionText)) := by
    simp [text]
  have hptr : skip isspace l.text 0 l.text.length = l.spaces.length :=
    skip_eq hstr l.isspace_spaces fun c hc => hrest c (mem_of_mem_head? hc)
  have hfin : skipBack isspace l.text l.spaces.length l.text.length = l.text.length :=
    skipBack_eq hstr hrest
  obtain ⟨c, cs, hcons⟩ := exists_cons_of_ne_nil l.body_ne_nil
  have hlt : l.spaces.length < l.text.length := by
    have hlen := congrArg List.length hstr
    simp only [hcons, nil_append, length_append, length_cons] at hlen
    omega
  unfold findPointRange
  rw [if_neg (by omega)]
  simp only [hptr, hfin]
  rw [if_neg hlt.ne]
  cases hsign : l.sign with
  | none =>
    have hempty : l.signText = [] := by rw [signText, hsign]
    have htext : l.text = l.spaces ++ (l.integer ++ l.fractionText) := by
      rw [text, hempty, append_nil]
    have hget : l.text.getD l.spaces.length ' ' = c := by
      rw [htext, hcons, getD_append_right _ _ _ _ (le_refl _), Nat.sub_self,
        getD_cons_zero]
    have hnot (d : Char) (hd : isDigitChar d = false) (hdot : d ≠ '.') : c ≠ d := by
      rintro rfl
      rcases l.mem_body (c := c) (by simp [hcons]) with h | h
      · rw [h] at hd
        exact absurd hd (by decide)
      · exact hdot h
    rw [hget, if_neg (hnot _ (by decide) (by decide)), if_neg (hnot _ (by decide) (by decide)),
      numberSign, hsign]
    exact ⟨_, rfl, l.findDigits_text htext⟩
  | some s =>
    have hget (d : Char) (h : l.signText = [d]) : l.text.getD l.spaces.length ' ' = d := by
      rw [text, h, append_assoc, getD_append_right _ _ _ _ (le_refl _), Nat.sub_self]
      rfl
    have htext : l.text = (l.spaces ++ l.signText) ++ (l.integer ++ l.fractionText) := rfl
    have hlen (d : Char) (h : l.signText = [d]) :
        (l.spaces ++ l.signText).length = l.spaces.length + 1 := by
      rw [h, length_append, length_singleton]
    cases s with
    | positive =>
      have hplus : l.signText = ['+'] := by rw [signText, hsign]
      rw [hget _ hplus, if_pos rfl, numberSign, hsign, ← hlen _ hplus]
      exact ⟨_, rfl, l.findDigits_text htext⟩
    | negative =>
      have hminus : l.signText = ['-'] := by rw [signText, hsign]
      rw [hget _ hminus, if_neg (by decide), if_pos rfl, numberSign, hsign, ← hlen _ hminus]
      exact ⟨_, rfl, l.findDigits_text htext⟩

end DecimalLiteral

/-! ### Groups of nine characters -/

theorem atoi_eq (s : List Char) : atoi s = ofDigitsBE 10 (s.map digitVal) := by
  induction s using List.reverseRecOn with
  | nil => rfl
  | append_singleton s c ih =>
    rw [atoi, foldl_append, map_append, ofDigitsBE_append]
    rw [atoi] at ih
    rw [ih, map_singleton, ofDigitsBE_singleton, length_singleton, pow_one]
    rfl

theorem constructPows_getD {n : ℕ} (h : n ≤ 10) : constructPows.getD n 0 = 10 ^ n := by
  interval_cases n <;> rfl

/-- A group is `step` digits, with zeros for those that are missing. -/
theorem group_eq (hstep : step ≤ 9) (s : List Char) :
    (if step < s.length then atoi (s.take step)
      else atoi s * constructPows.getD (step - s.length) 0) =
      ofDigitsBE 10 ((s.map digitVal).takeD step 0) := by
  split_ifs with hlt
  · rw [atoi_eq, map_take, takeD_eq_take 0 (by rw [length_map]; omega)]
  · rw [atoi_eq, constructPows_getD (by omega),
      takeD_of_length_le (by rw [length_map]; omega), ofDigitsBE_append,
      ofDigitsBE_replicate_zero, length_replicate, length_map, add_zero]

theorem decimalGroups_nil (n step : ℕ) : decimalGroups n step [] = [] := by
  cases n <;> rfl

theorem integerGroups_nil (n step : ℕ) : integerGroups n step [] = [] := by
  cases n <;> rfl

theorem decimalGroups_cons (hstep : step ≤ 9) (hs : s ≠ []) (n : ℕ) :
    decimalGroups (n + 1) step s =
      ofDigitsBE 10 ((s.map digitVal).takeD step 0) :: decimalGroups n 9 (s.drop step) := by
  rw [decimalGroups, if_neg hs, group_eq hstep]
  rfl

theorem length_decimalGroups_le (n step : ℕ) (s : List Char) :
    (decimalGroups n step s).length ≤ n := by
  induction n generalizing step s with
  | zero => exact le_refl _
  | succ n ih =>
    rcases eq_or_ne s [] with rfl | hne
    · exact Nat.zero_le _
    · rw [decimalGroups, if_neg hne, length_cons]
      exact Nat.succ_le_succ (ih _ _)

theorem decimalGroups_lt (hstep : step ≤ 9) (hs : ∀ c ∈ s, isDigitChar c = true) (n : ℕ) :
    ∀ a ∈ decimalGroups n step s, a < base := by
  induction n generalizing step s with
  | zero => simp [decimalGroups]
  | succ n ih =>
    rcases eq_or_ne s [] with rfl | hne
    · simp [decimalGroups_nil]
    · rw [decimalGroups_cons hstep hne]
      intro a ha
      rcases mem_cons.mp ha with rfl | ha
      · have hdigit : ∀ d ∈ (s.map digitVal).takeD step 0, d < 10 := by
          intro d hd
          refine takeD_lt (by decide) ?_ hd
          rintro d hd
          obtain ⟨c, hc, rfl⟩ := mem_map.mp hd
          exact digitVal_lt (hs c hc)
        have hlt := ofDigitsBE_lt (b := 10) (by decide) hdigit
        rw [takeD_length] at hlt
        exact hlt.trans_le (Nat.pow_le_pow_right (by decide) hstep)
      · exact ih (le_refl 9) (fun c hc => hs c (mem_of_mem_drop hc)) a ha

/-- **The groups** are the digits in base `10 ^ 9`. -/
theorem ofDigitsBE_decimalGroups (hstep : step ≤ 9) (s : List Char) {n k : ℕ} (hk : k < n) :
    ofDigitsBE base ((decimalGroups n step s).takeD (k + 1) 0) =
      ofDigitsBE 10 ((s.map digitVal).takeD (step + 9 * k) 0) := by
  induction k generalizing n step s with
  | zero =>
    obtain ⟨n, rfl⟩ := Nat.exists_eq_succ_of_ne_zero hk.ne'
    rcases eq_or_ne s [] with rfl | hne
    · rw [decimalGroups_nil, map_nil, takeD_nil, takeD_nil,
        ofDigitsBE_replicate_zero, ofDigitsBE_replicate_zero]
    · rw [Nat.succ_eq_add_one, decimalGroups_cons hstep hne]
      simp
  | succ k ih =>
    obtain ⟨n, rfl⟩ := Nat.exists_eq_succ_of_ne_zero (Nat.ne_zero_of_lt hk)
    rcases eq_or_ne s [] with rfl | hne
    · rw [decimalGroups_nil, map_nil, takeD_nil, takeD_nil,
        ofDigitsBE_replicate_zero, ofDigitsBE_replicate_zero]
    · have hrest := ih (le_refl 9) (s.drop step) (show k < n by omega)
      have hpow : base ^ (k + 1) = 10 ^ (9 + 9 * k) := by
        rw [show base = 10 ^ 9 from rfl, ← pow_mul]
        congr 1
        ring
      rw [Nat.succ_eq_add_one, decimalGroups_cons hstep hne, takeD_succ, head?_cons,
        Option.getD_some, tail_cons, ofDigitsBE_cons, takeD_length, hrest, hpow,
        show step + 9 * (k + 1) = step + (9 + 9 * k) by ring, takeD_add _ step, ofDigitsBE_append,
        takeD_length, map_drop]

theorem decimalGroups_append {k : ℕ} (hpos : 0 < step) (hstep : step ≤ 9)
    (hs : s.length = step + 9 * k) (t : List Char) (n : ℕ) :
    decimalGroups n step (s ++ t) =
      integerGroups n step s ++ decimalGroups (n - (integerGroups n step s).length) 9 t := by
  induction k generalizing n step s with
  | zero =>
    cases n with
    | zero => rfl
    | succ n =>
      have hne : s ≠ [] := length_pos_iff.mp (by omega)
      have htake : s.take step = s := take_of_length_le (by omega)
      have hdrop : s.drop step = [] := drop_eq_nil_iff.mpr (by omega)
      rw [decimalGroups_cons hstep (by simp [hne]), integerGroups, if_neg hne, htake, hdrop,
        integerGroups_nil, atoi_eq, map_append,
        takeD_left' (by rw [length_map]; omega), drop_append, hdrop, hs]
      simp
  | succ k ih =>
    cases n with
    | zero => rfl
    | succ n =>
      have hne : s ≠ [] := length_pos_iff.mp (by omega)
      have hlen : (s.drop step).length = 9 + 9 * k := by
        rw [length_drop]
        omega
      have hrest := ih (by decide) (le_refl 9) hlen n
      rw [decimalGroups_cons hstep (by simp [hne]), integerGroups, if_neg hne, atoi_eq,
        map_append, drop_append_of_le_length (by omega), hrest,
        takeD_eq_take 0 (by rw [length_append, length_map]; omega),
        take_append_of_le_length (by rw [length_map]; omega), map_take,
        cons_append, length_cons, Nat.add_sub_add_right]
      rfl

namespace DecimalLiteral

variable (l : DecimalLiteral)

/-- The characters of the groups. -/
structure Grouped (step : ℕ) (s : List Char) (e : ℤ) : Prop where
  step_pos : 0 < step
  step_le : step ≤ 9
  digits : ∀ c ∈ s, isDigitChar c = true
  head : ∀ c ∈ s.head?, c ≠ '0'
  magnitude_eq : l.magnitude =
    (ofDigitsBE 10 (s.map digitVal) : ℚ) / 10 ^ s.length * (10 : ℚ) ^ (step + 9 * e)

theorem magnitude_eq_leading :
    l.magnitude =
      ofDigitsBE 10 ((l.leading ++ l.decimals).map digitVal) / 10 ^ l.decimals.length := by
  rw [magnitude, ofDigitsBE_dropWhile_zero, leading]

theorem grouped_leading (h : l.leading ≠ []) :
    l.Grouped ((l.leading.length - 1) % 9 + 1) (l.leading ++ l.decimals)
      ((l.leading.length - 1) / 9 : ℕ) where
  step_pos := Nat.succ_pos _
  step_le := by omega
  digits := by
    intro c hc
    rcases mem_append.mp hc with hc | hc
    · exact l.isDigitChar_leading c hc
    · exact l.isDigitChar_fraction c hc
  head := by
    intro c hc
    exact dropWhile_zero_head l.integer c (by rwa [head?_append_of_ne_nil _ h] at hc)
  magnitude_eq := by
    have hpos := length_pos_iff.mpr h
    have hlen : ((((l.leading.length - 1) % 9 + 1 : ℕ) : ℤ) +
        9 * ((l.leading.length - 1) / 9 : ℕ)) = (l.leading.length : ℤ) := by omega
    rw [l.magnitude_eq_leading, hlen, zpow_natCast, length_append, pow_add]
    field_simp

/-- The zeros after the point, if there is nothing before it. -/
def zeros : ℕ := (l.decimals.takeWhile (· == '0')).length

/-- Without an integer part, whole groups of zeros are left out. -/
theorem grouped_decimals (h : l.leading = []) :
    l.Grouped (9 - l.zeros % 9) (l.decimals.drop l.zeros) (-((l.zeros / 9 + 1 : ℕ) : ℤ)) := by
  have hdrop : l.decimals.drop l.zeros = l.decimals.dropWhile (· == '0') :=
    drop_length_takeWhile l.decimals
  have hvalue := ofDigitsBE_dropWhile_zero l.decimals []
  rw [append_nil, append_nil, ← hdrop] at hvalue
  have hlen : l.decimals.length = l.zeros + (l.decimals.drop l.zeros).length := by
    rw [hdrop, zeros, ← length_append, takeWhile_append_dropWhile]
  refine ⟨by omega, by omega, ?_, ?_, ?_⟩
  · exact fun c hc => l.isDigitChar_fraction c (mem_of_mem_drop hc)
  · rw [hdrop]
    exact dropWhile_zero_head l.decimals
  · have hexp : (((9 - l.zeros % 9 : ℕ) : ℤ) + 9 * -((l.zeros / 9 + 1 : ℕ) : ℤ)) =
        -(l.zeros : ℤ) := by omega
    rw [l.magnitude_eq_leading, h, nil_append, hvalue, hexp, zpow_neg, zpow_natCast, hlen,
      pow_add]
    field_simp

/-- A literal of zeros has no groups. -/
theorem grouped_nil (hlead : l.leading = []) (hdecimals : l.decimals = []) : l.Grouped 9 [] 0 where
  step_pos := by decide
  step_le := le_refl 9
  digits := by simp
  head := by simp
  magnitude_eq := by simp [magnitude_eq_leading, hlead, hdecimals]

variable {l} in
/-- **The digits and the exponent** that are read. -/
theorem constructDigits_text {r : PointRange} {negative : Bool}
    (h : Scanned l.text r negative l.leading l.decimals) :
    ∃ step s e, l.Grouped step s e ∧
      constructDigits l.text r calcBufferSize =
        ((decimalGroups calcBufferSize step s).rdropWhile (· == 0), e) := by
  unfold constructDigits
  simp only [h.before_eq, h.after_eq]
  by_cases hlead : l.leading = []
  · have hbefore : ¬ r.startIdx < r.floatingPoint := fun hlt => h.before_iff.mp hlt hlead
    simp only [hbefore, if_false, length_nil, nil_append, Nat.sub_zero]
    by_cases hdecimals : l.decimals = []
    · refine ⟨9, [], 0, l.grouped_nil hlead hdecimals, ?_⟩
      have hafter : ¬ r.floatingPoint + 1 < r.endIdx := fun hlt => h.after_iff.mp hlt hdecimals
      rw [if_neg fun hmore => hafter hmore.2, decimalGroups_nil]
    · refine ⟨_, _, _, l.grouped_decimals hlead, ?_⟩
      rw [if_pos ⟨by decide, h.after_iff.mpr hdecimals⟩, if_neg (by decide)]
      rfl
  · refine ⟨_, _, _, l.grouped_leading hlead, ?_⟩
    have hpos := length_pos_iff.mpr hlead
    have hbefore := h.before_iff.mpr hlead
    rw [decimalGroups_append (k := (l.leading.length - 1) / 9) (Nat.succ_pos _) (by omega)
      (by omega)]
    simp only [hbefore, if_true]
    have hexp : ((((l.leading.length - 1) / maxStoreLen + 1 : ℕ) : ℤ) - 1) =
        ((l.leading.length - 1) / 9 : ℕ) := by
      rw [Nat.cast_succ, add_sub_cancel_right]
      rfl
    rw [hexp, show maxStoreLen = 9 from rfl]
    split_ifs with hmore
    · rfl
    · -- there is no room for decimals, or there are none
      have hnone : decimalGroups (calcBufferSize - (integerGroups calcBufferSize
          ((l.leading.length - 1) % 9 + 1) l.leading).length) 9 l.decimals = [] := by
        rcases Classical.not_and_iff_not_or_not.mp hmore with hfull | hnil
        · rw [Nat.sub_eq_zero_of_le (by omega)]
          rfl
        · rw [h.after_iff, not_not] at hnil
          rw [hnil, decimalGroups_nil]
      rw [hnone, append_nil]

end DecimalLiteral

end Andl.Number
