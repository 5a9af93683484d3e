import RecordGrammar.Proofs.Cycle

/-!
# What a search for a cycle comes to

`Finds successors root found`: a search that is given no list of vertices, but remembers those it has entered, ends with the
answer `found`. `found_correct`: where finitely many vertices can be reached, it does end, the search over a list of them
gives its answer, and the answer is a cycle (`IsCycle`) just if one can be reached. The invariant is that the path is a
trail from the root: each vertex on it is a successor of the one below and stands on it once.
-/

namespace RecordGrammar.Cycle
open Relation

variable {α ε : Type} {successors : α → Except ε (List α)} {root v w : α}

/-- A walk along edges that ends where it began and meets no vertex twice before. -/
structure IsCycle (successors : α → Except ε (List α)) (cycle : List α) : Prop where
  length : 2 ≤ cycle.length
  closed : cycle.head? = cycle.getLast?
  nodup : cycle.dropLast.Nodup
  edges : cycle.IsChain (Edge successors)

theorem IsCycle.exists_cyclic {cycle : List α} (h : IsCycle successors cycle) :
    ∃ v ∈ cycle, TransGen (Edge successors) v v := by
  obtain ⟨hlength, hclosed, -, hedges⟩ := h
  match cycle with
  | [] | [_] => simp at hlength
  | v :: w :: rest =>
    rw [List.isChain_cons_cons] at hedges
    refine ⟨v, List.mem_cons_self, .head' hedges.1 ?_⟩
    refine List.relationReflTransGen_of_exists_isChain_cons rest hedges.2 ?_
    simpa [List.getLast?_eq_some_getLast] using hclosed.symm

/-! ### The path of a search -/

/-- The path of a search from the root, the last vertex first. -/
structure Trail (successors : α → Except ε (List α)) (root : α) (path : List (α × List α)) : Prop
    extends Linked successors path where
  edges : (path.map (·.1)).IsChain fun w v => Edge successors v w
  nodup : (path.map (·.1)).Nodup
  reach : ∀ v ∈ path.map (·.1), ReflTransGen (Edge successors) root v

namespace Trail
variable {next after : List α} {before : List (α × List α)}

theorem start {ws : List α} (h : successors root = .ok ws) : Trail successors root [(root, ws)] where
  toLinked := .start h
  edges := List.isChain_singleton root
  nodup := List.nodup_singleton root
  reach := fun v hv => by rw [List.mem_singleton.mp hv]

theorem leave (h : Trail successors root ((v, next) :: before)) : Trail successors root before where
  toLinked := h.toLinked.tail
  edges := h.edges.tail
  nodup := h.nodup.of_cons
  reach := fun w hw => h.reach w (List.mem_cons_of_mem v hw)

theorem drop (h : Trail successors root ((v, w :: next) :: before)) : Trail successors root ((v, next) :: before) where
  toLinked := h.toLinked.drop
  edges := h.edges
  nodup := h.nodup
  reach := h.reach

theorem reach_next (h : Trail successors root ((v, w :: next) :: before)) : ReflTransGen (Edge successors) root w :=
  (h.reach v List.mem_cons_self).tail h.toLinked.edge

theorem enter (h : Trail successors root ((v, w :: next) :: before)) (hpath : w ∉ ((v, next) :: before).map (·.1))
    (hw : successors w = .ok after) : Trail successors root ((w, after) :: (v, next) :: before) where
  toLinked := h.toLinked.push hw
  edges := List.isChain_cons_cons.mpr ⟨h.toLinked.edge, h.edges⟩
  nodup := List.nodup_cons.mpr ⟨hpath, h.nodup⟩
  reach := List.forall_mem_cons.mpr ⟨h.reach_next, h.reach⟩

end Trail

/-! ### The search -/

variable [DecidableEq α]

/-- From the vertices it has left, `left`, and its path, a search that remembers what it has entered ends with this
answer. -/
inductive Ends (successors : α → Except ε (List α)) : List α → List (α × List α) → Option (List α) → Prop
  | done {left : List α} : Ends successors left [] none
  | leave {left : List α} {v : α} {before : List (α × List α)} {found : Option (List α)}
    (h : Ends successors (v :: left) before found) : Ends successors left ((v, []) :: before) found
  | meet {left next : List α} {v w : α} {before : List (α × List α)} (hw : w ∈ ((v, next) :: before).map (·.1)) :
    Ends successors left ((v, w :: next) :: before) (some (close w ((v, next) :: before)))
  | pass {left next : List α} {v w : α} {before : List (α × List α)} {found : Option (List α)}
    (hpath : w ∉ ((v, next) :: before).map (·.1)) (hleft : w ∈ left)
    (h : Ends successors left ((v, next) :: before) found) : Ends successors left ((v, w :: next) :: before) found
  | enter {left next after : List α} {v w : α} {before : List (α × List α)} {found : Option (List α)}
    (hpath : w ∉ ((v, next) :: before).map (·.1)) (hleft : w ∉ left) (hw : successors w = .ok after)
    (h : Ends successors left ((w, after) :: (v, next) :: before) found) :
    Ends successors left ((v, w :: next) :: before) found

/-- A search from the root that remembers what it has entered ends with this answer. -/
def Finds (successors : α → Except ε (List α)) (root : α) (found : Option (List α)) : Prop :=
  ∃ ws, successors root = .ok ws ∧ Ends successors [] [(root, ws)] found

theorem Ends.det {left : List α} {path : List (α × List α)} {found found' : Option (List α)}
    (h : Ends successors left path found) (h' : Ends successors left path found') : found = found' := by
  induction h with
  | done => cases h'; rfl
  | leave _ ih => cases h' with | leave h' => exact ih h'
  | meet hw =>
    cases h' with
    | meet => rfl
    | pass hpath => exact absurd hw hpath
    | enter hpath => exact absurd hw hpath
  | pass hpath hleft _ ih =>
    cases h' with
    | meet hw => exact absurd hw hpath
    | pass _ _ h' => exact ih h'
    | enter _ hleft' => exact absurd hleft hleft'
  | enter hpath hleft hw _ ih =>
    cases h' with
    | meet hw => exact absurd hw hpath
    | pass _ hleft' => exact absurd hleft' hleft
    | enter _ _ hw' h' =>
      cases hw.symm.trans hw'
      exact ih h'

theorem Finds.det {found found' : Option (List α)} (h : Finds successors root found)
    (h' : Finds successors root found') : found = found' := by
  obtain ⟨ws, hws, h⟩ := h
  obtain ⟨ws', hws', h'⟩ := h'
  cases hws.symm.trans hws'
  exact h.det h'

/-- The path from a vertex that is on it once, and that vertex again. -/
theorem close_eq {path : List (α × List α)} {above below : List α} (h : path.map (·.1) = above ++ w :: below)
    (hw : w ∉ below) : close w path = w :: above.reverse ++ [w] := by
  have hbelow : ∀ x ∈ below.reverse, decide (x ≠ w) = true := fun x hx =>
    decide_eq_true fun he => hw (he ▸ List.mem_reverse.mp hx)
  rw [close, h, List.reverse_append, List.reverse_cons, List.append_assoc, List.dropWhile_append_of_pos hbelow,
    List.singleton_append, List.dropWhile_cons_of_neg (by simp)]

/-- What a search gives when it meets a vertex on its path is a cycle. -/
theorem Trail.isCycle_close {next : List α} {before : List (α × List α)}
    (h : Trail successors root ((v, w :: next) :: before)) (hw : w ∈ ((v, next) :: before).map (·.1)) :
    IsCycle successors (close w ((v, next) :: before)) ∧
      ∀ x ∈ close w ((v, next) :: before), ReflTransGen (Edge successors) root x := by
  obtain ⟨above, below, hpath⟩ := List.append_of_mem hw
  have hsplit : above ++ w :: below = above ++ [w] ++ below := by rw [List.append_assoc, List.singleton_append]
  have hnodup := h.drop.nodup
  have hedges := h.drop.edges
  have hreach := h.drop.reach
  rw [hpath] at hnodup hedges hreach
  rw [close_eq hpath (List.nodup_cons.mp hnodup.of_append_right).1]
  rw [hsplit] at hnodup hedges hreach
  have hback : (above ++ [w]).reverse = w :: above.reverse := List.reverse_concat
  -- the walk goes up the path from `w` to `v`, and from there back to `w`
  have hup : (w :: above.reverse).IsChain (Edge successors) := by
    rw [← hback, List.isChain_reverse]
    exact hedges.left_of_append
  have htop : (w :: above.reverse).getLast? = some v := by
    rw [← hback, List.getLast?_reverse]
    have hhead := congrArg List.head? (hpath.trans hsplit)
    simpa using hhead.symm
  refine ⟨⟨by simp, ?_, ?_, ?_⟩, fun x hx => hreach x ?_⟩
  · rw [List.getLast?_concat]
    rfl
  · rw [List.dropLast_concat, ← hback, List.nodup_reverse]
    exact hnodup.of_append_left
  · refine hup.append (List.isChain_singleton w) fun x hx y hy => ?_
    rw [htop] at hx
    cases hx
    cases hy
    exact h.toLinked.edge
  · rw [← hback] at hx
    simp only [List.mem_append, List.mem_reverse, List.mem_singleton] at hx ⊢
    tauto

theorem Ends.isCycle {left : List α} {path : List (α × List α)} {cycle : List α}
    (h : Ends successors left path (some cycle)) (ht : Trail successors root path) :
    IsCycle successors cycle ∧ ∀ v ∈ cycle, ReflTransGen (Edge successors) root v := by
  generalize hfound : some cycle = found at h
  induction h with
  | done => cases hfound
  | leave _ ih => exact ih ht.leave hfound
  | meet hw =>
    cases hfound
    exact ht.isCycle_close hw
  | pass _ _ _ ih => exact ih ht.drop hfound
  | enter hpath _ hw _ ih => exact ih (ht.enter hpath hw) hfound

/-- If the search finds nothing, then all vertices on its path are grounded. -/
theorem Ends.grounded {left : List α} {path : List (α × List α)} (h : Ends successors left path none)
    (hleft : ∀ v ∈ left, Grounded successors v) (hwaits : Waits successors none path) :
    ∀ v ∈ path.map (·.1), Grounded successors v := by
  generalize hfound : none = found at h
  induction h with
  | done => exact fun _ hv => absurd hv List.not_mem_nil
  | leave _ ih =>
    obtain ⟨hv, hbefore⟩ := hwaits.leave
    exact List.forall_mem_cons.mpr ⟨hv, ih (List.forall_mem_cons.mpr ⟨hv, hleft⟩) hbefore hfound⟩
  | meet => cases hfound
  | pass _ hw _ ih => exact ih hleft (hwaits.pass fun _ => hleft _ hw) hfound
  | enter _ _ hw _ ih => exact fun v hv => ih hleft (hwaits.enter hw) hfound v (List.mem_cons_of_mem _ hv)

/-! ### The search over a list of vertices -/

/-- If all that can be reached is fresh, on the path or left, a search over a list comes to the same as one that remembers
what it has entered. -/
theorem ends_of_search {fresh left : List α} {path : List (α × List α)} {found : Option (List α)}
    (hsearch : search successors fresh path = .ok found) (ht : Trail successors root path) (hnodup : fresh.Nodup)
    (hfresh : ∀ x, ReflTransGen (Edge successors) root x → (x ∈ fresh ↔ x ∉ path.map (·.1) ∧ x ∉ left)) :
    Ends successors left path found := by
  fun_induction search successors fresh path generalizing left with
  | case1 =>
    cases hsearch
    exact .done
  | case2 fresh v before ih =>
    refine .leave (ih hsearch ht.leave hnodup fun x hx => ?_)
    rw [hfresh x hx, List.map_cons, List.mem_cons, List.mem_cons]
    tauto
  | case3 fresh v w next before hpath =>
    cases hsearch
    exact .meet hpath
  | case4 => cases hsearch
  | case5 fresh v w next before hpath hw after hafter ih =>
    have hleft : w ∉ left := ((hfresh w ht.reach_next).mp hw).2
    refine .enter hpath hleft hafter (ih hsearch (ht.enter hpath hafter) (hnodup.erase w) fun x hx => ?_)
    rw [hnodup.mem_erase_iff, hfresh x hx]
    simp only [List.map_cons, List.mem_cons, not_or, and_assoc]
  | case6 fresh v w next before hpath hw ih =>
    -- a vertex that is neither fresh nor on the path has been left
    have hleft : w ∈ left := by
      have := mt (hfresh w ht.reach_next).mpr hw
      tauto
    exact .pass hpath hleft (ih hsearch ht.drop hnodup hfresh)

theorem nodup_eraseDups : ∀ l : List α, l.eraseDups.Nodup
  | [] => List.nodup_nil
  | a :: l => by
    rw [List.eraseDups_cons, List.nodup_cons]
    exact ⟨by simp, nodup_eraseDups _⟩
termination_by l => l.length
decreasing_by exact Nat.lt_succ_of_le (List.length_filter_le _ l)

theorem finds_of_find {vertices : List α} {found : Option (List α)}
    (hvertices : ∀ v, ReflTransGen (Edge successors) root v → v ∈ vertices)
    (h : find vertices successors root = .ok found) : Finds successors root found := by
  match hs : successors root with
  | .error e =>
    unfold find at h
    rw [hs] at h
    cases h
  | .ok ws =>
    rw [find_eq_search hs] at h
    refine ⟨ws, hs, ends_of_search h (.start hs) ((nodup_eraseDups vertices).erase root) fun x hx => ?_⟩
    rw [(nodup_eraseDups vertices).mem_erase_iff, List.mem_eraseDups, List.map_singleton, List.mem_singleton]
    have := hvertices x hx
    have : x ∉ [] := List.not_mem_nil
    tauto

/-- Where finitely many vertices can be reached from the root, and their successors are known, a search ends with one answer,
which the search over any list of these vertices gives. It is nothing just if no vertex that can be reached lies on a
cycle, and otherwise a cycle that can be reached. -/
theorem found_correct (hfinite : {v | ReflTransGen (Edge successors) root v}.Finite)
    (hknown : ∀ v, ReflTransGen (Edge successors) root v → ∃ ws, successors v = .ok ws) :
    ∃ found, (∀ other, Finds successors root other ↔ other = found) ∧
      (∀ vertices, (∀ v, ReflTransGen (Edge successors) root v → v ∈ vertices) →
        find vertices successors root = .ok found) ∧
      (found = none ↔ ¬ ∃ v, ReflTransGen (Edge successors) root v ∧ TransGen (Edge successors) v v) ∧
      ∀ cycle, found = some cycle →
        IsCycle successors cycle ∧ ∀ v ∈ cycle, ReflTransGen (Edge successors) root v := by
  obtain ⟨found, hfound⟩ : ∃ found, find hfinite.toFinset.toList successors root = .ok found := find_ok hknown
  have hfinds : Finds successors root found := finds_of_find (fun v hv => by simpa using hv) hfound
  have hcycle : ∀ cycle, found = some cycle →
      IsCycle successors cycle ∧ ∀ v ∈ cycle, ReflTransGen (Edge successors) root v := by
    rintro cycle rfl
    obtain ⟨ws, hs, h⟩ := hfinds
    exact h.isCycle (.start hs)
  refine ⟨found, fun other => ⟨fun h => h.det hfinds, fun h => h ▸ hfinds⟩, fun vertices hvertices => ?_, ⟨?_, ?_⟩,
    hcycle⟩
  · obtain ⟨found', hfound'⟩ : ∃ found', find vertices successors root = .ok found' := find_ok hknown
    rw [hfound', (finds_of_find hvertices hfound').det hfinds]
  · rintro rfl ⟨v, hv, hcyclic⟩
    obtain ⟨ws, hs, h⟩ := hfinds
    have hroot : Grounded successors root :=
      h.grounded (fun _ hv => absurd hv List.not_mem_nil) (.start hs) root List.mem_cons_self
    exact (hroot.reach hv).not_cyclic hcyclic
  · intro hacyclic
    cases found with
    | none => rfl
    | some cycle =>
      obtain ⟨hc, hreach⟩ := hcycle cycle rfl
      obtain ⟨v, hv, hcyclic⟩ := hc.exists_cyclic
      exact absurd ⟨v, hreach v hv, hcyclic⟩ hacyclic

/-- Two ways lead to `1`, and one of them twice. -/
def crossing : Fin 4 → Except Empty (List (Fin 4)) :=
  fun v => .ok (![[1, 1, 2], [3], [1, 2], [2]] v)

theorem found_correct_crossing :
    {v | ReflTransGen (Edge crossing) 0 v}.Finite ∧
      (∀ v, ReflTransGen (Edge crossing) 0 v → ∃ ws, crossing v = .ok ws) ∧
      (∀ other, Finds crossing 0 other ↔ other = some [1, 3, 2, 1]) ∧ IsCycle crossing [1, 3, 2, 1] := by
  have hfinite : {v | ReflTransGen (Edge crossing) 0 v}.Finite := Set.toFinite _
  have hknown : ∀ v, ReflTransGen (Edge crossing) 0 v → ∃ ws, crossing v = .ok ws := fun v _ => ⟨_, rfl⟩
  obtain ⟨found, hfinds, hfind, -, hcycle⟩ := found_correct hfinite hknown
  have hrun : find [0, 1, 2, 3] crossing 0 = .ok (some [1, 3, 2, 1]) := by
    rw [find_eq_search (show crossing 0 = .ok [1, 1, 2] from rfl)]
    simp [search, crossing, close, List.eraseDups_cons]
  have hall : ∀ v, ReflTransGen (Edge crossing) 0 v → v ∈ [0, 1, 2, 3] := by
    have : ∀ v : Fin 4, v ∈ [0, 1, 2, 3] := by decide
    exact fun v _ => this v
  cases (hfind _ hall).symm.trans hrun
  exact ⟨hfinite, hknown, hfinds, (hcycle _ rfl).1⟩

end RecordGrammar.Cycle
