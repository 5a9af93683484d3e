import RecordGrammar.Model.Document
import RecordGrammar.Proofs.Json.Fields

/-!
# Arranged JSON values

Arranging a value sorts the fields of its objects. `Arranges fs gs`: the fields `gs` are the fields `fs` in some order, with
their values arranged. Since an object holds each key once, it holds the same under each key as before (`Arranges.get?`).
-/

namespace RecordGrammar.Json

variable {fs gs : Fields} {key : String} {v w : Json}

/-- Whether an object under this name keeps the order of its fields. -/
def keepsOrder (key : String) : Bool := key == "properties" || key == "default"

theorem arrangedFields_eq : arrangedFields fs = fs.map fun f => (f.1, f.2.arranged (keepsOrder f.1)) := by
  induction fs with
  | nil => rw [arrangedFields, List.map_nil]
  | cons f fs ih =>
    obtain ⟨k, v⟩ := f
    rw [arrangedFields, ih]
    rfl

theorem arranged_str {keep : Bool} {s : String} : (str s).arranged keep = str s := by
  rw [arranged] <;> exact nofun

theorem arranged_int {keep : Bool} {n : Int} : (int n).arranged keep = int n := by
  rw [arranged] <;> exact nofun

theorem arranged_obj_of_keep : (obj fs).arranged true = .obj (arrangedFields fs) := by
  rw [arranged]
  rfl

theorem arrangedElements_eq {keep : Bool} {vs : List Json} : arrangedElements keep vs = vs.map (arranged keep) := by
  induction vs with
  | nil => rw [arrangedElements, List.map_nil]
  | cons v vs ih => rw [arrangedElements, ih, List.map_cons]

/-- Texts stay as they are. -/
theorem arranged_texts {keep : Bool} {vs : List Json} (h : vs.all (·.str?.isSome)) : (arr vs).arranged keep = arr vs := by
  rw [arranged, arrangedElements_eq]
  congr 1
  rw [List.all_eq_true] at h
  refine (List.map_congr_left fun v hv => ?_).trans (List.map_id vs)
  have hstr := h v hv
  cases v with
  | str s => exact arranged_str
  | null | bool | int | float | arr | obj => cases hstr

/-- The fields are the given ones in some order, with their values arranged. -/
def Arranges (fs gs : Fields) : Prop := gs.Perm (fs.map fun f => (f.1, f.2.arranged (keepsOrder f.1)))

/-- Arranging an object arranges its fields. -/
theorem exists_arranges (fs : Fields) (keep : Bool) : ∃ gs, (obj fs).arranged keep = obj gs ∧ Arranges fs gs := by
  rw [arranged, arrangedFields_eq]
  refine ⟨_, rfl, ?_⟩
  cases keep with
  | true => exact .refl _
  | false => exact List.mergeSort_perm _ _

namespace Arranges

theorem nodup (h : Arranges fs gs) (hkeys : (fs.map (·.1)).Nodup) : (gs.map (·.1)).Nodup := by
  rw [(h.map (·.1)).nodup_iff, List.map_map]
  exact hkeys

theorem mem_iff (h : Arranges fs gs) : (key, w) ∈ gs ↔ ∃ v, (key, v) ∈ fs ∧ v.arranged (keepsOrder key) = w := by
  rw [List.Perm.mem_iff h, List.mem_map]
  refine ⟨?_, ?_⟩
  · rintro ⟨⟨k, v⟩, hmem, he⟩
    cases he
    exact ⟨v, hmem, rfl⟩
  · rintro ⟨v, hmem, rfl⟩
    exact ⟨(key, v), hmem, rfl⟩

theorem get? (h : Arranges fs gs) (hkeys : (fs.map (·.1)).Nodup) :
    gs.get? key = (fs.get? key).map (arranged (keepsOrder key)) := by
  rcases hget : fs.get? key with _ | v
  · rw [Option.map_none, Fields.get?_eq_none_iff]
    rw [Fields.get?_eq_none_iff] at hget
    intro hmem
    obtain ⟨⟨k, w⟩, hw, rfl⟩ := List.mem_map.mp hmem
    obtain ⟨v, hv, -⟩ := h.mem_iff.mp hw
    exact hget (List.mem_map.mpr ⟨(k, v), hv, rfl⟩)
  · exact Fields.get?_of_mem (h.nodup hkeys) (h.mem_iff.mpr ⟨v, Fields.mem_of_get? hget, rfl⟩)

end Arranges

end RecordGrammar.Json
