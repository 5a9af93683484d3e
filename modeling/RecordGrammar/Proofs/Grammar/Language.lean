import RecordGrammar.Grammar.Token
import RecordGrammar.Proofs.Text.Language

/-!
# The languages of expressions

`Expr.texts body e`: the texts that `e` stands for, as a language. Languages form a semiring, so each way to build
an expression has an equation here: a row is a product (`texts_row`), alternatives are a sum (`texts_oneOf`), and a
repetition is a union of powers (`mem_texts_repeated`).
-/

namespace RecordGrammar

namespace Expr
variable {body : String → Option Expr} {gap : Gap} {a b e : Expr} {w : List Char}

/-- The texts that an expression stands for. -/
def texts (body : String → Option Expr) (e : Expr) : Language Char := {w | Derives body e w}

theorem mem_texts : w ∈ e.texts body ↔ Derives body e w := Iff.rfl

@[simp] theorem texts_empty : empty.texts body = 1 := by
  ext w
  rw [mem_texts, Language.mem_one]
  exact ⟨fun h => by cases h; rfl, fun h => h ▸ .empty⟩

@[simp] theorem texts_literal (s : String) : (literal s).texts body = just s := by
  ext w
  rw [mem_texts, mem_just]
  exact ⟨fun h => by cases h; rfl, fun h => h ▸ .literal s⟩

@[simp] theorem texts_word (s : String) : (word s).texts body = just s := texts_literal s

@[simp] theorem texts_quote : quote.texts body = just "\"" := texts_literal _

@[simp] theorem texts_jsonText (s : String) : (jsonText s).texts body = just (Json.literal s) := texts_literal _

@[simp] theorem texts_cls (k : CharClass) : (cls k).texts body = oneChar fun c => k.admits c = true := by
  ext w
  rw [mem_texts, mem_oneChar]
  exact ⟨fun h => by cases h with | cls h => exact ⟨_, h, rfl⟩, fun ⟨c, h, hw⟩ => hw ▸ .cls h⟩

theorem texts_rule {name : String} (h : body name = some e) : (rule name).texts body = e.texts body := by
  ext w
  rw [mem_texts, mem_texts]
  refine ⟨fun hw => ?_, fun hw => .rule h hw⟩
  cases hw with
  | rule h' hw =>
    rw [h] at h'
    cases h'
    exact hw

@[simp] theorem texts_seq : (seq gap a b).texts body = a.texts body * b.texts body := by
  ext w
  rw [mem_texts, Language.mem_mul]
  exact ⟨fun h => by cases h with | seq hs ht => exact ⟨_, hs, _, ht, rfl⟩,
    fun ⟨_, hs, _, ht, hw⟩ => hw ▸ .seq hs ht⟩

@[simp] theorem texts_alt : (alt gap a b).texts body = a.texts body + b.texts body := by
  ext w
  rw [mem_texts, Language.mem_add]
  refine ⟨fun h => ?_, fun h => h.elim .altFirst .altRest⟩
  cases h with
  | altFirst h => exact .inl h
  | altRest h => exact .inr h

@[simp] theorem texts_group : (group e).texts body = e.texts body := by
  ext w
  rw [mem_texts, mem_texts]
  exact ⟨fun h => by cases h with | group h => exact h, .group⟩

theorem mem_texts_repeated {times : Times} :
    w ∈ (repeated e times).texts body ↔ ∃ n, times.Admits n ∧ w ∈ e.texts body ^ n := by
  rw [mem_texts]
  refine ⟨fun h => ?_, fun ⟨n, hn, hw⟩ => ?_⟩
  · cases h with
    | repeated hn h => exact ⟨_, hn, Language.mem_pow.mpr ⟨_, rfl, rfl, h⟩⟩
  · obtain ⟨ts, rfl, rfl, h⟩ := Language.mem_pow.mp hw
    exact .repeated hn h

/-! ### Repetition -/

@[simp] theorem texts_between (lo hi : Nat) :
    (repeated e (.between lo hi)).texts body = runs (e.texts body) lo hi := by
  ext w
  rw [mem_texts_repeated, mem_runs]
  exact exists_congr fun n => by rw [Times.Admits, Int.ofNat_le, and_assoc]

@[simp] theorem texts_exactly (n : Nat) : (repeated e (.exactly n)).texts body = e.texts body ^ n := by
  ext w
  rw [mem_texts_repeated]
  exact ⟨fun ⟨_, h, hw⟩ => h ▸ hw, fun hw => ⟨n, rfl, hw⟩⟩

@[simp] theorem texts_some : (repeated e .some).texts body = someRuns (e.texts body) := by
  ext w
  exact mem_texts_repeated

@[simp] theorem texts_maybe : (maybe e).texts body = 1 + e.texts body := by
  rw [← runs_zero_one]
  ext w
  rw [maybe, mem_texts_repeated, mem_runs]
  exact exists_congr fun n => ⟨fun h => ⟨Nat.zero_le n, h⟩, fun h => h.2⟩

/-! ### Rows and alternatives -/

@[simp] theorem texts_andThen : (andThen gap a b).texts body = a.texts body * b.texts body := by
  fun_induction andThen gap a b with
  | case1 g a c e ih => rw [texts_seq, texts_seq, ih, mul_assoc]
  | case2 => exact texts_seq

theorem texts_row (gap : Gap) (es : List Expr) : (row gap es).texts body = (es.map (texts body)).prod := by
  induction es with
  | nil => exact texts_empty
  | cons e es ih =>
    cases es with
    | nil => rw [row, List.map_singleton, List.prod_singleton]
    | cons e' es =>
      rw [row, texts_andThen, ih]
      · simp only [List.map_cons, List.prod_cons]
      · exact List.cons_ne_nil _ _

theorem texts_oneOf (gap : Gap) {es : List Expr} (h : es ≠ []) :
    (oneOf gap es).texts body = (es.map (texts body)).sum := by
  induction es with
  | nil => exact absurd rfl h
  | cons e es ih =>
    cases es with
    | nil => rw [oneOf, List.map_singleton, List.sum_singleton]
    | cons e' es =>
      rw [oneOf, texts_alt, ih (List.cons_ne_nil _ _)]
      · simp only [List.map_cons, List.sum_cons]
      · exact List.cons_ne_nil _ _

end Expr

end RecordGrammar
