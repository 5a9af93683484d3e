import RecordGrammar.Proofs.Grammar.GrammarText
import RecordGrammar.Proofs.Shape.Conforms

/-!
# A grammar admits only JSON of its shape

`admits_conforming`: whatever a grammar derives from `root`, once it has been read back from its own text, is one
JSON text, and the value it stands for is of the shape. The texts of the shape lead from one to the other.
-/

namespace RecordGrammar
open JsonText Reading

variable {settings : GrammarSettings}

/-- Every text of a shape is JSON, of a value of the shape. -/
theorem Shape.isText_of_mem {shape : Shape} {w : List Char} (hplain : shape.every Shape.hasPlainPattern = true)
    (h : w ∈ shape.texts settings) : ∃ v, IsText w v ∧ shape.Conforms settings v := by
  obtain ⟨t, g, v, ht, hg, hv, rfl⟩ := shape.written hplain w h
  exact ⟨v, ⟨[], t, g, List.forall_mem_nil _, ht, hg, rfl⟩, hv⟩

/-- What a grammar admits is JSON, and the one value it stands for is of the shape. -/
theorem admits_conforming {shape : Shape} {table : RuleTable} (h : (shape.grammar settings).1 = .ok table)
    (hfree : shape.every Shape.hasFreeSegments = true) (hread : shape.every Shape.isReadable = true)
    (hplain : shape.every Shape.hasPlainPattern = true) :
    ∃ read, readRules table.render = some read ∧ ∀ w, Expr.Derives read.body? (.rule "root") w →
      ∃ v, (IsText w v ∧ ∀ v', IsText w v' → v' = v) ∧ shape.Conforms settings v := by
  refine ⟨table.canonical, readRules_grammar h hread, fun w hw => ?_⟩
  obtain ⟨v, ht, hv⟩ := Shape.isText_of_mem hplain ((derives_canonical_root h hfree hread).mp hw)
  exact ⟨v, ⟨ht, fun v' ht' => ht'.unique ht⟩, hv⟩

theorem admits_conforming_code :
    ∃ table, ((Shape.object "Part" [{ name := "code", type := .string { format := some "A-9" } }]).grammar {}).1 =
      .ok table ∧
    ∃ read, readRules table.render = some read ∧ ∀ w, Expr.Derives read.body? (.rule "root") w →
      ∃ v, (IsText w v ∧ ∀ v', IsText w v' → v' = v) ∧
        (Shape.object "Part" [{ name := "code", type := .string { format := some "A-9" } }]).Conforms {} v := by
  have h : ((Shape.object "Part" [{ name := "code", type := .string { format := some "A-9" } }]).grammar {}).1 =
      .ok (finishTable {} (objectExpr ["root-code-kv"]) (((seedTable {}).push "root-code" (patternExpr "A-9")).push
        "root-code-kv" (fieldExpr "code" (.rule "root-code")))) := by
    rfl
  exact ⟨_, h, admits_conforming h (by decide) (by decide +kernel) (by decide +kernel)⟩

end RecordGrammar
