import Mathlib
import RecordGrammar.Cycle

/-!
# What the cycle search finds

`Grounded successors v`: every walk from `v` ends, and the successors of all vertices on it are known.
`find_eq_none_iff`: the search finds nothing just if its root is grounded.

The search keeps two invariants. The frames on its path wait for each other: a successor of a frame's vertex is
grounded, still to be followed, or the vertex of the frame above (`Waits`). And a frame's vertex and what it has still
to follow are edges of the graph (`Linked`), so a vertex met again closes a cycle.
-/

namespace RecordGrammar.Cycle
open Relation

variable {α ε : Type} {successors : α → Except ε (List α)} {v w : α}

def Edge (successors : α → Except ε (List α)) (v w : α) : Prop := ∃ ws, successors v = .ok ws ∧ w ∈ ws

theorem Edge.mem {ws : List α} (he : Edge successors v w) (hv : successors v = .ok ws) : w ∈ ws := by
  obtain ⟨ws', hv', hw⟩ := he
  cases hv.symm.trans hv'
  exact hw

/-- Every walk from the vertex ends, and the successors of all vertices on it are known. -/
inductive Grounded (successors : α → Except ε (List α)) : α → Prop
  | intro {v : α} {ws : List α} (h : successors v = .ok ws) (hws : ∀ w ∈ ws, Grounded successors w) :
    Grounded successors v

namespace Grounded

theorem edge (h : Grounded successors v) (he : Edge successors v w) : Grounded successors w := by
  obtain ⟨hv, hws⟩ := h
  exact hws w (he.mem hv)

theorem reach (h : Grounded successors v) (hr : ReflTransGen (Edge successors) v w) : Grounded successors w := by
  induction hr with
  | refl => exact h
  | tail _ he ih => exact ih.edge he

/-- No walk from a grounded vertex leads back to it. -/
theorem not_cyclic (h : Grounded successors v) : ¬ TransGen (Edge successors) v v := by
  induction h with
  | @intro v ws hv hws ih =>
    intro hcycle
    obtain ⟨w, hvw, hwv⟩ := TransGen.head'_iff.mp hcycle
    exact ih w (hvw.mem hv) (TransGen.tail' hwv hvw)

end Grounded

/-- Every walk from the vertex ends, and does not leave the given vertices. -/
structure Covered (successors : α → Except ε (List α)) (fresh : List α) (v : α) : Prop where
  grounded : Grounded successors v
  mem : ∀ w, ReflTransGen (Edge successors) v w → w ∈ fresh

/-! ### Frames on the path -/

/-- Each vertex on the path waits only for what it has still to follow and for the vertex above it. -/
def Waits (successors : α → Except ε (List α)) (above : Option α) : List (α × List α) → Prop
  | [] => True
  | (v, next) :: before =>
    (∃ ws, successors v = .ok ws ∧ ∀ w ∈ ws, some w = above ∨ w ∈ next ∨ Grounded successors w) ∧
      Waits successors (some v) before

namespace Waits
variable {next after : List α} {before path : List (α × List α)}

theorem start {ws : List α} (h : successors v = .ok ws) : Waits successors none [(v, ws)] :=
  ⟨⟨ws, h, fun _ hw => .inr (.inl hw)⟩, trivial⟩

/-- A vertex that is grounded need not be waited for. -/
theorem of_grounded (h : Waits successors (some v) path) (hv : Grounded successors v) : Waits successors none path := by
  cases path with
  | nil => trivial
  | cons f before =>
    obtain ⟨⟨ws, hf, hws⟩, hbefore⟩ := h
    refine ⟨⟨ws, hf, fun w hw => ?_⟩, hbefore⟩
    rcases hws w hw with he | hn | hg
    · cases he
      exact .inr (.inr hv)
    · exact .inr (.inl hn)
    · exact .inr (.inr hg)

/-- A vertex with nothing left to follow is grounded, and nothing waits for it any more. -/
theorem leave (h : Waits successors none ((v, []) :: before)) : Grounded successors v ∧ Waits successors none before := by
  obtain ⟨⟨ws, hv, hws⟩, hbefore⟩ := h
  have hg : Grounded successors v := .intro hv fun w hw => by
    rcases hws w hw with he | hn | hg
    · cases he
    · cases hn
    · exact hg
  exact ⟨hg, hbefore.of_grounded hg⟩

/-- The vertex to follow next is waited for above. -/
theorem follow (h : Waits successors none ((v, w :: next) :: before)) : Waits successors (some w) ((v, next) :: before) := by
  obtain ⟨⟨ws, hv, hws⟩, hbefore⟩ := h
  refine ⟨⟨ws, hv, fun x hx => ?_⟩, hbefore⟩
  rcases hws x hx with he | hn | hg
  · cases he
  · rcases List.mem_cons.mp hn with rfl | hn
    · exact .inl rfl
    · exact .inr (.inl hn)
  · exact .inr (.inr hg)

theorem enter (h : Waits successors none ((v, w :: next) :: before)) (hw : successors w = .ok after) :
    Waits successors none ((w, after) :: (v, next) :: before) :=
  ⟨⟨after, hw, fun _ hx => .inr (.inl hx)⟩, h.follow⟩

/-- A vertex that is grounded, if it is waited for at all, is passed over. -/
theorem pass (h : Waits successors none ((v, w :: next) :: before)) (hw : Edge successors v w → Grounded successors w) :
    Waits successors none ((v, next) :: before) := by
  obtain ⟨⟨ws, hv, hws⟩, hbefore⟩ := h.follow
  refine ⟨⟨ws, hv, fun x hx => ?_⟩, hbefore⟩
  rcases hws x hx with he | hn | hg
  · cases he
    exact .inr (.inr (hw ⟨ws, hv, hx⟩))
  · exact .inr (.inl hn)
  · exact .inr (.inr hg)

end Waits

/-- What a frame has still to follow are edges, and each vertex on the path is reached from those below it. -/
structure Linked (successors : α → Except ε (List α)) (path : List (α × List α)) : Prop where
  next : ∀ f ∈ path, ∀ w ∈ f.2, Edge successors f.1 w
  below : path.Pairwise fun f g => TransGen (Edge successors) g.1 f.1

namespace Linked
variable {next after : List α} {before : List (α × List α)}

/-- The path on which a search starts. -/
theorem start {ws : List α} (h : successors v = .ok ws) : Linked successors [(v, ws)] := by
  refine ⟨fun f hf w hw => ?_, List.pairwise_singleton _ _⟩
  rw [List.mem_singleton.mp hf] at hw ⊢
  exact ⟨ws, h, hw⟩

theorem tail (h : Linked successors ((v, next) :: before)) : Linked successors before :=
  ⟨fun f hf => h.next f (List.mem_cons_of_mem _ hf), h.below.of_cons⟩

theorem edge (h : Linked successors ((v, w :: next) :: before)) : Edge successors v w :=
  h.next _ List.mem_cons_self w List.mem_cons_self

/-- The next vertex is taken off what is still to be followed. -/
theorem drop (h : Linked successors ((v, w :: next) :: before)) : Linked successors ((v, next) :: before) := by
  refine ⟨fun f hf x hx => ?_, ?_⟩
  · rcases List.mem_cons.mp hf with rfl | hf
    · exact h.next _ List.mem_cons_self x (List.mem_cons_of_mem w hx)
    · exact h.next f (List.mem_cons_of_mem _ hf) x hx
  · exact List.pairwise_cons.mpr (List.pairwise_cons.mp h.below)

theorem push (h : Linked successors ((v, w :: next) :: before)) (hw : successors w = .ok after) :
    Linked successors ((w, after) :: (v, next) :: before) := by
  refine ⟨fun f hf x hx => ?_, List.pairwise_cons.mpr ⟨fun f hf => ?_, h.drop.below⟩⟩
  · rcases List.mem_cons.mp hf with rfl | hf
    · exact ⟨after, hw, hx⟩
    · exact h.drop.next f hf x hx
  · rcases List.mem_cons.mp hf with rfl | hf
    · exact .single h.edge
    · exact ((List.pairwise_cons.mp h.below).1 f hf).tail h.edge

/-- A vertex that is met again lies on a cycle. -/
theorem cyclic (h : Linked successors ((v, w :: next) :: before)) (hw : w ∈ ((v, next) :: before).map (·.1)) :
    TransGen (Edge successors) w w := by
  obtain ⟨f, hf, rfl⟩ := List.mem_map.mp hw
  rcases List.mem_cons.mp hf with rfl | hf
  · exact .single h.edge
  · exact ((List.pairwise_cons.mp h.below).1 f hf).tail h.edge

end Linked

/-! ### The search -/

variable [DecidableEq α] {vertices : List α}

/-- Past an edge the vertex left behind is not met again. -/
theorem Covered.next {fresh : List α} (h : Covered successors fresh v) (he : Edge successors v w) :
    Covered successors (fresh.erase v) w := by
  refine ⟨h.grounded.edge he, fun x hx => ?_⟩
  have hne : x ≠ v := fun hxv => h.grounded.not_cyclic (.head' he (hxv ▸ hx))
  exact (List.mem_erase_of_ne hne).mpr (h.mem x (hx.head he))

/-- If the search finds nothing, then all vertices on its path are grounded. -/
theorem grounded_of_search (hclosed : ∀ v w, Edge successors v w → w ∈ vertices ∨ Grounded successors w)
    (fresh : List α) (path : List (α × List α)) (hsearch : search successors fresh path = .ok none)
    (hseen : ∀ v ∈ vertices, v ∈ fresh ∨ v ∈ path.map (·.1) ∨ Grounded successors v)
    (hwaits : Waits successors none path) : ∀ v ∈ path.map (·.1), Grounded successors v := by
  fun_induction search successors fresh path with
  | case1 => exact nofun
  | case2 fresh v before ih =>
    obtain ⟨hg, hbefore⟩ := hwaits.leave
    refine List.forall_mem_cons.mpr ⟨hg, ih hsearch (fun x hx => ?_) hbefore⟩
    rcases hseen x hx with hf | hp | hx
    · exact .inl hf
    · rcases List.mem_cons.mp hp with rfl | hp
      · exact .inr (.inr hg)
      · exact .inr (.inl hp)
    · exact .inr (.inr hx)
  | case3 => cases hsearch
  | case4 => cases hsearch
  | case5 fresh v w next before _ hfresh after hw ih =>
    have hrest := ih hsearch (fun x hx => ?_) (hwaits.enter hw)
    · exact fun x hx => hrest x (List.mem_cons_of_mem w hx)
    · by_cases he : x = w
      · exact .inr (.inl (he ▸ List.mem_cons_self))
      · rcases hseen x hx with hf | hp | hx
        · exact .inl ((List.mem_erase_of_ne he).mpr hf)
        · exact .inr (.inl (List.mem_cons_of_mem w hp))
        · exact .inr (.inr hx)
  | case6 fresh v w next before hpath hfresh ih =>
    -- a vertex that is neither fresh nor on the path has been left already
    refine ih hsearch hseen (hwaits.pass fun he => ?_)
    rcases hclosed v w he with hx | hg
    · exact ((hseen w hx).resolve_left hfresh).resolve_left hpath
    · exact hg

/-- From grounded vertices the search finds nothing. -/
theorem search_eq_none {fresh : List α} {path : List (α × List α)} (hlinked : Linked successors path)
    (hg : ∀ v ∈ path.map (·.1), Grounded successors v) : search successors fresh path = .ok none := by
  fun_induction search successors fresh path with
  | case1 => rfl
  | case2 fresh v before ih => exact ih hlinked.tail fun x hx => hg x (List.mem_cons_of_mem v hx)
  | case3 fresh v w next before hpath => exact absurd (hlinked.cyclic hpath) (hg w hpath).not_cyclic
  | case4 fresh v w next before _ _ e hw =>
    have hgw : Grounded successors w := (hg v List.mem_cons_self).edge hlinked.edge
    obtain ⟨hw', -⟩ := hgw
    rw [hw] at hw'
    cases hw'
  | case5 fresh v w next before _ _ after hw ih =>
    refine ih (hlinked.push hw) fun x hx => ?_
    rcases List.mem_cons.mp hx with rfl | hx
    · exact (hg v List.mem_cons_self).edge hlinked.edge
    · exact hg x hx
  | case6 fresh v w next before _ _ ih => exact ih hlinked.drop hg

/-- The search fails only where the successors of a vertex are not known. -/
theorem exists_of_search_error {fresh : List α} {path : List (α × List α)} {e : ε}
    (h : search successors fresh path = .error e) : ∃ v, successors v = .error e := by
  fun_induction search successors fresh path with
  | case1 => cases h
  | case2 _ _ _ ih => exact ih h
  | case3 => cases h
  | case4 _ _ w _ _ _ _ e' hw =>
    cases h
    exact ⟨w, hw⟩
  | case5 _ _ _ _ _ _ _ _ _ ih => exact ih h
  | case6 _ _ _ _ _ _ _ ih => exact ih h

/-- The search does not fail if the successors of all vertices are known that can be reached from those on its path. -/
theorem search_ok {fresh : List α} {path : List (α × List α)} (hlinked : Linked successors path)
    (h : ∀ f ∈ path, ∀ w, TransGen (Edge successors) f.1 w → ∃ ws, successors w = .ok ws) :
    ∃ cycle, search successors fresh path = .ok cycle := by
  fun_induction search successors fresh path with
  | case1 => exact ⟨none, rfl⟩
  | case2 fresh v before ih => exact ih hlinked.tail fun f hf => h f (List.mem_cons_of_mem _ hf)
  | case3 => exact ⟨_, rfl⟩
  | case4 fresh v w next before _ _ e hw =>
    obtain ⟨ws, hw'⟩ := h _ List.mem_cons_self w (.single hlinked.edge)
    rw [hw] at hw'
    cases hw'
  | case5 fresh v w next before _ _ after hw ih =>
    refine ih (hlinked.push hw) fun f hf x hx => ?_
    rcases List.mem_cons.mp hf with rfl | hf
    · exact h _ List.mem_cons_self x (.head hlinked.edge hx)
    · rcases List.mem_cons.mp hf with rfl | hf
      · exact h _ List.mem_cons_self x hx
      · exact h f (List.mem_cons_of_mem _ hf) x hx
  | case6 fresh v w next before _ _ ih =>
    refine ih hlinked.drop fun f hf x hx => ?_
    rcases List.mem_cons.mp hf with rfl | hf
    · exact h _ List.mem_cons_self x hx
    · exact h f (List.mem_cons_of_mem _ hf) x hx

/-! ### The whole search -/

theorem find_eq_search {ws : List α} (h : successors v = .ok ws) :
    find vertices successors v = search successors (vertices.eraseDups.erase v) [(v, ws)] := by
  unfold find
  rw [h]
  rfl

theorem exists_of_find_error {root : α} {e : ε} (h : find vertices successors root = .error e) :
    ∃ v, successors v = .error e := by
  cases hs : successors root with
  | error e' =>
    unfold find at h
    rw [hs] at h
    cases h
    exact ⟨root, hs⟩
  | ok ws =>
    rw [find_eq_search hs] at h
    exact exists_of_search_error h

/-- The search finds no cycle just if its root is grounded. All vertices that matter must be listed. -/
theorem find_eq_none_iff (hclosed : ∀ v w, Edge successors v w → w ∈ vertices ∨ Grounded successors w) {root : α} :
    find vertices successors root = .ok none ↔ Grounded successors root := by
  refine ⟨fun h => ?_, fun h => ?_⟩
  · match hs : successors root with
    | .error e =>
      unfold find at h
      rw [hs] at h
      cases h
    | .ok ws =>
      rw [find_eq_search hs] at h
      refine grounded_of_search hclosed _ _ h (fun v hv => ?_) (.start hs) root List.mem_cons_self
      by_cases he : v = root
      · exact .inr (.inl (he ▸ List.mem_cons_self))
      · exact .inl ((List.mem_erase_of_ne he).mpr (List.mem_eraseDups.mpr hv))
  · obtain ⟨hs, hws⟩ := h
    rw [find_eq_search hs]
    refine search_eq_none (.start hs) fun v hv => ?_
    rw [List.map_singleton, List.mem_singleton] at hv
    exact hv ▸ .intro hs hws

/-- The search does not fail if the successors of all vertices are known that can be reached from its root. -/
theorem find_ok {root : α} (h : ∀ v, ReflTransGen (Edge successors) root v → ∃ ws, successors v = .ok ws) :
    ∃ cycle, find vertices successors root = .ok cycle := by
  obtain ⟨ws, hs⟩ := h root .refl
  rw [find_eq_search hs]
  refine search_ok (.start hs) fun f hf w hw => ?_
  rw [List.mem_singleton.mp hf] at hw
  exact h w hw.to_reflTransGen

end RecordGrammar.Cycle
