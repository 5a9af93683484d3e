import Mathlib

/-!
# Languages of texts

The ways in which the texts of a record are put together: runs of one language, lists with separators, and decimal
numbers of two digits.
-/

namespace RecordGrammar

def just (s : String) : Language Char := {s.toList}

def oneChar (p : Char → Prop) : Language Char := {w | ∃ c, p c ∧ w = [c]}

/-- From `lo` to `hi` texts of a language in a row. -/
def runs (l : Language Char) (lo hi : Nat) : Language Char := {w | ∃ n, lo ≤ n ∧ n ≤ hi ∧ w ∈ l ^ n}

/-- One text of a language or more of them in a row. -/
def someRuns (l : Language Char) : Language Char := {w | ∃ n, 1 ≤ n ∧ w ∈ l ^ n}

/-- A text of each of the languages in turn, with separators between them. -/
def joined (sep : Language Char) : List (Language Char) → Language Char
  | [] => 1
  | [l] => l
  | l :: ls => l * sep * joined sep ls

/-- From `lo` to `hi` texts of a language with separators between them. -/
def listOf (sep l : Language Char) (lo hi : Nat) : Language Char :=
  {w | ∃ n, lo ≤ n ∧ n ≤ hi ∧ w ∈ joined sep (List.replicate n l)}

/-- One decimal digit of a value from `lo` to `hi`. -/
def digitOf (lo hi : Nat) : Language Char := {w | ∃ n, lo ≤ n ∧ n ≤ hi ∧ w = [n.digitChar]}

/-- A number from `lo` to `hi` in two decimal digits. -/
def numberOf (lo hi : Nat) : Language Char :=
  {w | ∃ n, lo ≤ n ∧ n ≤ hi ∧ w = [(n / 10).digitChar, (n % 10).digitChar]}

variable {l sep : Language Char} {lo hi : Nat} {w : List Char}

theorem mem_just {s : String} : w ∈ just s ↔ w = s.toList := Iff.rfl

theorem just_append (s t : String) : just (s ++ t) = just s * just t := by
  ext w
  rw [mem_just, String.toList_append, Language.mem_mul]
  exact ⟨fun h => ⟨_, rfl, _, rfl, h.symm⟩, fun ⟨_, ha, _, hb, h⟩ => by rw [← h, mem_just.mp ha, mem_just.mp hb]⟩

theorem mem_just_mul {s : String} : w ∈ just s * l ↔ ∃ v ∈ l, w = s.toList ++ v := by
  rw [Language.mem_mul]
  refine ⟨?_, fun ⟨v, hv, h⟩ => ⟨s.toList, rfl, v, hv, h.symm⟩⟩
  rintro ⟨_, rfl, v, hv, rfl⟩
  exact ⟨v, hv, rfl⟩

theorem just_empty : just "" = 1 := rfl

theorem mem_oneChar {p : Char → Prop} : w ∈ oneChar p ↔ ∃ c, p c ∧ w = [c] := Iff.rfl

theorem mem_runs : w ∈ runs l lo hi ↔ ∃ n, lo ≤ n ∧ n ≤ hi ∧ w ∈ l ^ n := Iff.rfl

theorem mem_listOf : w ∈ listOf sep l lo hi ↔ ∃ n, lo ≤ n ∧ n ≤ hi ∧ w ∈ joined sep (List.replicate n l) := Iff.rfl

theorem mem_digitOf : w ∈ digitOf lo hi ↔ ∃ n, lo ≤ n ∧ n ≤ hi ∧ w = [n.digitChar] := Iff.rfl

theorem mem_numberOf :
    w ∈ numberOf lo hi ↔ ∃ n, lo ≤ n ∧ n ≤ hi ∧ w = [(n / 10).digitChar, (n % 10).digitChar] := Iff.rfl

theorem oneChar_congr {p q : Char → Prop} (h : ∀ c, p c ↔ q c) : oneChar p = oneChar q :=
  congrArg oneChar (funext fun c => propext (h c))

/-! ### Runs -/

theorem length_of_mem_oneChar_pow {p : Char → Prop} {n : Nat} (h : w ∈ oneChar p ^ n) : w.length = n := by
  induction n generalizing w with
  | zero =>
    rw [pow_zero, Language.mem_one] at h
    exact h ▸ rfl
  | succ n ih =>
    rw [pow_succ'] at h
    obtain ⟨_, ⟨c, _, rfl⟩, v, hv, rfl⟩ := h
    exact congrArg (· + 1) (ih hv)

theorem mem_oneChar_pow {p : Char → Prop} (h : ∀ c ∈ w, p c) : w ∈ oneChar p ^ w.length := by
  induction w with
  | nil =>
    rw [List.length_nil, pow_zero]
    exact Language.nil_mem_one
  | cons c w ih =>
    have hc : [c] ∈ oneChar p := ⟨c, h c List.mem_cons_self, rfl⟩
    rw [List.length_cons, pow_succ']
    exact Language.append_mem_mul hc (ih fun d hd => h d (List.mem_cons_of_mem c hd))

theorem mem_oneChar_pow_iff {p : Char → Prop} {n : Nat} : w ∈ oneChar p ^ n ↔ w.length = n ∧ ∀ c ∈ w, p c := by
  constructor
  · intro h
    refine ⟨length_of_mem_oneChar_pow h, ?_⟩
    obtain ⟨ws, rfl, -, hws⟩ := Language.mem_pow.mp h
    intro c hc
    obtain ⟨v, hv, hcv⟩ := List.mem_flatten.mp hc
    obtain ⟨d, hd, rfl⟩ := hws v hv
    exact List.mem_singleton.mp hcv ▸ hd
  · rintro ⟨rfl, h⟩
    exact mem_oneChar_pow h

theorem runs_self (l : Language Char) (n : Nat) : runs l n n = l ^ n := by
  ext w
  refine mem_runs.trans ⟨fun ⟨k, hlo, hhi, h⟩ => ?_, fun h => ⟨n, Nat.le_refl n, Nat.le_refl n, h⟩⟩
  rwa [Nat.le_antisymm hhi hlo] at h

theorem runs_zero_one (l : Language Char) : runs l 0 1 = 1 + l := by
  ext w
  rw [mem_runs, Language.mem_add]
  refine ⟨fun ⟨n, _, hn, h⟩ => ?_, fun h => ?_⟩
  · rcases Nat.le_one_iff_eq_zero_or_eq_one.mp hn with rfl | rfl
    · exact .inl (by rwa [pow_zero] at h)
    · exact .inr (by rwa [pow_one] at h)
  · rcases h with h | h
    · exact ⟨0, Nat.le_refl 0, Nat.zero_le 1, by rwa [pow_zero]⟩
    · exact ⟨1, Nat.zero_le 1, Nat.le_refl 1, by rwa [pow_one]⟩

theorem mul_runs (m l : Language Char) (lo hi : Nat) :
    w ∈ m * runs l lo hi ↔ ∃ n, lo ≤ n ∧ n ≤ hi ∧ w ∈ m * l ^ n := by
  rw [Language.mem_mul]
  refine ⟨fun ⟨a, ha, b, ⟨n, hlo, hhi, hb⟩, h⟩ => ⟨n, hlo, hhi, a, ha, b, hb, h⟩,
    fun ⟨n, hlo, hhi, a, ha, b, hb, h⟩ => ⟨a, ha, b, ⟨n, hlo, hhi, hb⟩, h⟩⟩

/-! ### Lists -/

theorem joined_cons (sep l : Language Char) (ls : List (Language Char)) :
    joined sep (l :: ls) = l * (ls.map (sep * ·)).prod := by
  induction ls generalizing l with
  | nil => rw [joined, List.map_nil, List.prod_nil, mul_one]
  | cons l' ls ih =>
    rw [joined, ih, List.map_cons, List.prod_cons, mul_assoc, mul_assoc]
    exact List.cons_ne_nil l' ls

theorem joined_replicate_succ (sep l : Language Char) (n : Nat) :
    joined sep (List.replicate (n + 1) l) = l * (sep * l) ^ n := by
  rw [List.replicate_succ, joined_cons, List.map_replicate, List.prod_replicate]

theorem listOf_zero (sep l : Language Char) : listOf sep l 0 0 = 1 := by
  ext w
  refine mem_listOf.trans ⟨fun ⟨n, _, hn, h⟩ => ?_, fun h => ⟨0, Nat.le_refl 0, Nat.le_refl 0, h⟩⟩
  rw [Nat.le_zero.mp hn] at h
  exact h

/-- A list that is not empty is an element and then runs of a separator and an element. -/
theorem listOf_succ (sep l : Language Char) (lo hi : Nat) :
    listOf sep l (lo + 1) (hi + 1) = l * runs (sep * l) lo hi := by
  ext w
  rw [mem_listOf, mul_runs]
  refine ⟨fun ⟨n, hlo, hhi, h⟩ => ?_, fun ⟨n, hlo, hhi, h⟩ => ?_⟩
  · obtain ⟨n, rfl⟩ : ∃ k, n = k + 1 := ⟨n - 1, by omega⟩
    rw [joined_replicate_succ] at h
    exact ⟨n, by omega, by omega, h⟩
  · refine ⟨n + 1, by omega, by omega, ?_⟩
    rwa [joined_replicate_succ]

theorem listOf_zero_succ (sep l : Language Char) (hi : Nat) :
    listOf sep l 0 (hi + 1) = 1 + l * runs (sep * l) 0 hi := by
  rw [← listOf_succ]
  ext w
  rw [mem_listOf, Language.mem_add, mem_listOf]
  refine ⟨fun ⟨n, _, hhi, h⟩ => ?_, fun h => ?_⟩
  · rcases Nat.eq_zero_or_pos n with rfl | hn
    · exact .inl h
    · exact .inr ⟨n, hn, hhi, h⟩
  · rcases h with h | ⟨n, -, hhi, h⟩
    · exact ⟨0, Nat.le_refl 0, Nat.zero_le _, h⟩
    · exact ⟨n, Nat.zero_le n, hhi, h⟩

theorem mul_listOf_mul (a b sep l : Language Char) (lo hi : Nat) :
    w ∈ a * listOf sep l lo hi * b ↔ ∃ n, lo ≤ n ∧ n ≤ hi ∧ w ∈ a * joined sep (List.replicate n l) * b := by
  constructor
  · rintro ⟨_, ⟨x, hx, y, ⟨n, hlo, hhi, hy⟩, rfl⟩, z, hz, rfl⟩
    exact ⟨n, hlo, hhi, _, ⟨x, hx, y, hy, rfl⟩, z, hz, rfl⟩
  · rintro ⟨n, hlo, hhi, _, ⟨x, hx, y, hy, rfl⟩, z, hz, rfl⟩
    exact ⟨_, ⟨x, hx, y, ⟨n, hlo, hhi, hy⟩, rfl⟩, z, hz, rfl⟩

/-! ### Numbers -/

theorem mem_digitOf_mul {a b c d : Nat} :
    w ∈ digitOf a b * digitOf c d ↔ ∃ m n, (a ≤ m ∧ m ≤ b) ∧ (c ≤ n ∧ n ≤ d) ∧ w = [m.digitChar, n.digitChar] := by
  rw [Language.mem_mul]
  refine ⟨?_, ?_⟩
  · rintro ⟨_, ⟨m, ha, hb, rfl⟩, _, ⟨n, hc, hd, rfl⟩, rfl⟩
    exact ⟨m, n, ⟨ha, hb⟩, ⟨hc, hd⟩, rfl⟩
  · rintro ⟨m, n, ⟨ha, hb⟩, ⟨hc, hd⟩, rfl⟩
    exact ⟨_, ⟨m, ha, hb, rfl⟩, _, ⟨n, hc, hd, rfl⟩, rfl⟩

/-- A digit and any digit behind it are the numbers of the decades. -/
theorem digitOf_mul_digit (a b : Nat) : digitOf a b * digitOf 0 9 = numberOf (10 * a) (10 * b + 9) := by
  ext w
  rw [mem_digitOf_mul, mem_numberOf]
  refine ⟨?_, ?_⟩
  · rintro ⟨m, n, hm, hn, rfl⟩
    refine ⟨10 * m + n, by omega, by omega, ?_⟩
    rw [show (10 * m + n) / 10 = m by omega, show (10 * m + n) % 10 = n by omega]
  · rintro ⟨n, hlo, hhi, rfl⟩
    exact ⟨n / 10, n % 10, by omega, by omega, rfl⟩

/-- A fixed digit and a digit behind it are numbers of one decade. -/
theorem digit_mul_digitOf (a c d : Nat) (h : d ≤ 9) : digitOf a a * digitOf c d = numberOf (10 * a + c) (10 * a + d) := by
  ext w
  rw [mem_digitOf_mul, mem_numberOf]
  refine ⟨?_, ?_⟩
  · rintro ⟨m, n, hm, hn, rfl⟩
    refine ⟨10 * m + n, by omega, by omega, ?_⟩
    rw [show (10 * m + n) / 10 = m by omega, show (10 * m + n) % 10 = n by omega]
  · rintro ⟨n, hlo, hhi, rfl⟩
    exact ⟨n / 10, n % 10, by omega, by omega, rfl⟩

theorem numberOf_add (a b c : Nat) (hab : a ≤ b + 1) (hbc : b ≤ c) :
    numberOf a b + numberOf (b + 1) c = numberOf a c := by
  ext w
  rw [Language.mem_add, mem_numberOf, mem_numberOf, mem_numberOf]
  refine ⟨?_, ?_⟩
  · rintro (⟨n, hlo, hhi, rfl⟩ | ⟨n, hlo, hhi, rfl⟩)
    · exact ⟨n, hlo, by omega, rfl⟩
    · exact ⟨n, by omega, hhi, rfl⟩
  · rintro ⟨n, hlo, hhi, rfl⟩
    rcases Nat.lt_or_ge b n with h | h
    · exact .inr ⟨n, h, hhi, rfl⟩
    · exact .inl ⟨n, hlo, h, rfl⟩

/-! ### Properties of all texts -/

/-- The languages all of whose texts have a property of the empty text that goes from two texts to both in a row. -/
def within (P : List Char → Prop) (nil : P []) (append : ∀ a b, P a → P b → P (a ++ b)) :
    Subsemiring (Language Char) where
  carrier := {l | ∀ w ∈ l, P w}
  one_mem' := fun w hw => by
    rw [Language.mem_one] at hw
    exact hw ▸ nil
  mul_mem' := fun ha hb w hw => by
    obtain ⟨a, h, b, h', rfl⟩ := Language.mem_mul.mp hw
    exact append a b (ha a h) (hb b h')
  zero_mem' := fun w hw => absurd hw (Language.notMem_zero w)
  add_mem' := fun ha hb w hw => ((Language.mem_add _ _ w).mp hw).elim (ha w) (hb w)

/-- Runs of a language stay within what holds the language. -/
theorem runs_mem_within {P : List Char → Prop} {nil : P []} {append : ∀ a b, P a → P b → P (a ++ b)}
    (h : l ∈ within P nil append) : runs l lo hi ∈ within P nil append := fun w ⟨n, _, _, hw⟩ => pow_mem h n w hw

theorem someRuns_mem_within {P : List Char → Prop} {nil : P []} {append : ∀ a b, P a → P b → P (a ++ b)}
    (h : l ∈ within P nil append) : someRuns l ∈ within P nil append := fun w ⟨n, _, hw⟩ => pow_mem h n w hw

def madeOf (p : Char → Bool) : Subsemiring (Language Char) :=
  within (∀ c ∈ ·, p c = true) nofun fun _ _ ha hb c hc => (List.mem_append.mp hc).elim (ha c) (hb c)

theorem just_mem_madeOf {p : Char → Bool} {s : String} (h : s.toList.all p = true) : just s ∈ madeOf p :=
  fun _ hw => mem_just.mp hw ▸ List.all_eq_true.mp h

theorem oneChar_mem_madeOf {p : Char → Bool} {q : Char → Prop} (h : ∀ c, q c → p c = true) : oneChar q ∈ madeOf p :=
  fun w ⟨c, hc, hw⟩ d hd => by
    rw [hw, List.mem_singleton] at hd
    exact hd ▸ h c hc

theorem digitOf_mem_madeOf {p : Char → Bool} (h : ∀ c : Char, c.isDigit = true → p c = true) (h9 : hi ≤ 9) :
    digitOf lo hi ∈ madeOf p := fun w ⟨n, _, hn, hw⟩ c hc => by
  rw [hw, List.mem_singleton] at hc
  subst hc
  refine h _ ?_
  rw [Nat.isDigit_digitChar, decide_eq_true_eq]
  omega

end RecordGrammar
