import AccessFilter.Proofs.Session.Identity

/-!
# When an index comes back

The next index is looked up in the tree as it stands, and a tree keeps no memory of the nodes that
were taken out of it.  So in one session two nodes may get the same index, one after the other.

**No gap.**  Below the limit of indices, new nodes are numbered right after the largest index in the
tree.  Hence every number up to the largest index there has been was given out
(`exists_mem_indices_of_le`): whatever a tree has room for above its own largest index was either
never used, or belongs to a node that is gone.

**Coming back.**  As long as the node with the largest index so far stays in the tree, an addition
gives out an index that no node had.  Once that node is gone, the next addition uses an index for
the second time.

* `Group.reached` — the trees of a session.
* `Group.Reused` — an index is given out again.
* **`Group.reused_iff`** — which additions do so, and for which of their nodes.
-/

namespace AccessFilter.Group

/-! ## The indices after an edit -/

/-- An index is an old one or a new one. -/
lemma Extends.mem_or_mem {new : List Nat} {before after : Group} (h : Extends new before after)
    {i : Nat} (hi : i ∈ after.indices) : i ∈ before.indices ∨ i ∈ new := by
  have hpos : 0 < (before.indices ++ new).count i :=
    (List.count_pos_iff.mpr hi).trans_le (h.count_le i)
  exact List.mem_append.mp (List.count_pos_iff.mp hpos)

/-! ## Sessions -/

/-- The tree after the first `k` edits of a session from the group an editor starts with. -/
def reached (edits : List Edit) (k : Nat) : Group :=
  (starting none 0).run (edits.take k)

lemma reached_succ {edits : List Edit} {k : Nat} (hk : k < edits.length) :
    reached edits (k + 1) = (reached edits k).apply edits[k] :=
  run_take_succ _ hk

/-- Every step of a session gives out the numbers from the next index on, perhaps none. -/
lemma exists_extends_reached {edits : List Edit} {k : Nat}
    (hafter : ∀ i ∈ (reached edits (k + 1)).indices, i < indexLimit) :
    ∃ count, Extends (List.range' (reached edits k).nextIndex count) (reached edits k)
      (reached edits (k + 1)) := by
  rcases Nat.lt_or_ge k edits.length with hk | hk
  · rw [reached_succ hk] at hafter ⊢
    exact extends_apply_range' hafter
  · have hover : edits.take (k + 1) = edits.take k := by
      rw [List.take_of_length_le hk, List.take_of_length_le (Nat.le_succ_of_le hk)]
    refine ⟨0, ?_⟩
    rw [reached, reached, hover]
    exact extends_self _

/-- **The indices that were given out have no gap:** if a node had an index, then some node had any
smaller one. -/
lemma exists_mem_indices_of_le {edits : List Edit} {i j k : Nat} (hji : j ≤ i)
    (hlimit : ∀ m ≤ k, ∀ i ∈ (reached edits m).indices, i < indexLimit)
    (hi : ∃ m ≤ k, i ∈ (reached edits m).indices) :
    ∃ m ≤ k, j ∈ (reached edits m).indices := by
  induction k generalizing i with
  | zero =>
      obtain ⟨m, hm, hi⟩ := hi
      obtain rfl := Nat.le_zero.mp hm
      have hstart : (reached edits 0).indices = [0, 1] := rfl
      rw [hstart] at hi
      refine ⟨0, le_rfl, ?_⟩
      simp only [hstart, List.mem_cons, List.not_mem_nil, or_false] at hi ⊢
      omega
  | succ k ih =>
      have hbefore : (∃ m ≤ k, i ∈ (reached edits m).indices) →
          ∃ m ≤ k + 1, j ∈ (reached edits m).indices := by
        intro hi
        obtain ⟨m, hm, hj⟩ := ih hji (fun m hm => hlimit m (Nat.le_succ_of_le hm)) hi
        exact ⟨m, Nat.le_succ_of_le hm, hj⟩
      obtain ⟨m, hm, hi⟩ := hi
      rcases Nat.le_succ_iff.mp hm with hm | rfl
      · exact hbefore ⟨m, hm, hi⟩
      · obtain ⟨count, hext⟩ := exists_extends_reached (hlimit (k + 1) le_rfl)
        rcases hext.mem_or_mem hi with hi | hi
        · exact hbefore ⟨k, le_rfl, hi⟩
        · -- the numbers below a new index are below the largest old one, or new themselves
          have hnext := nextIndex_eq (hlimit k (Nat.le_succ k))
          rw [List.mem_range'_1] at hi
          rcases Nat.lt_or_ge j (reached edits k).nextIndex with hj | hj
          · obtain ⟨m, hm, hj⟩ := ih (i := (reached edits k).maxIndex) (by omega)
              (fun m hm => hlimit m (Nat.le_succ_of_le hm)) ⟨k, le_rfl, maxIndex_mem_indices _⟩
            exact ⟨m, Nat.le_succ_of_le hm, hj⟩
          · exact ⟨k + 1, le_rfl, hext.subset (List.mem_range'_1.mpr ⟨hj, by omega⟩)⟩

/-! ## Coming back -/

/-- Whether the edit after the first `k` gives a node an index that an earlier tree of the session
had given to a node which has been removed since. -/
def Reused (edits : List Edit) (k i : Nat) : Prop :=
  i ∈ (reached edits (k + 1)).indices ∧ i ∉ (reached edits k).indices ∧
    ∃ m < k, i ∈ (reached edits m).indices

instance (edits : List Edit) (k i : Nat) : Decidable (Reused edits k i) :=
  inferInstanceAs (Decidable (_ ∧ _ ∧ ∃ m < k, _))

lemma reused_iff_le_maxIndex {edits : List Edit} {k : Nat}
    (hlimit : ∀ m ≤ k + 1, ∀ i ∈ (reached edits m).indices, i < indexLimit) (i : Nat) :
    Reused edits k i ↔ i ∈ (reached edits (k + 1)).indices ∧
      (reached edits k).maxIndex < i ∧ ∃ m < k, i ≤ (reached edits m).maxIndex := by
  have hnext := nextIndex_eq (hlimit k (Nat.le_succ k))
  constructor
  · rintro ⟨hi, hgone, m, hm, hheld⟩
    obtain ⟨count, hext⟩ := exists_extends_reached (hlimit (k + 1) le_rfl)
    have hnew := List.mem_range'_1.mp ((hext.mem_or_mem hi).resolve_left hgone)
    exact ⟨hi, by omega, m, hm, le_maxIndex hheld⟩
  · rintro ⟨hi, hlt, m, hm, hle⟩
    have hgone : i ∉ (reached edits k).indices := fun hmem => absurd (le_maxIndex hmem) hlt.not_ge
    obtain ⟨n, hn, hheld⟩ := exists_mem_indices_of_le hle
      (fun m hm => hlimit m (Nat.le_succ_of_le hm)) ⟨m, hm.le, maxIndex_mem_indices _⟩
    have hne : n ≠ k := by
      rintro rfl
      exact hgone hheld
    exact ⟨hi, hgone, n, hn.lt_of_ne hne, hheld⟩

/-- **When an added node gets the index of a removed one.**  An index that an addition gives out has
been given out before exactly if it is no larger than the largest index there was before; and an
addition that applies does that for one of its nodes exactly if the node with the largest index so
far is gone. -/
theorem reused_iff {edits : List Edit} {k : Nat} {path : List Nat} {rule : Option Rule}
    {asGroup : Bool} (hadd : edits[k]? = some (.addRule path rule asGroup))
    (hlimit : ∀ m ≤ k + 1, ∀ i ∈ (reached edits m).indices, i < indexLimit) :
    (∀ i, Reused edits k i ↔ i ∈ (reached edits (k + 1)).indices ∧
        (reached edits k).maxIndex < i ∧ ∃ m < k, i ≤ (reached edits m).maxIndex) ∧
      ((∃ i, Reused edits k i) ↔ reached edits (k + 1) ≠ reached edits k ∧
        ∃ m < k, (reached edits k).maxIndex < (reached edits m).maxIndex) := by
  refine ⟨reused_iff_le_maxIndex hlimit, ?_⟩
  constructor
  · rintro ⟨i, hreused⟩
    obtain ⟨hi, hlt, m, hm, hle⟩ := (reused_iff_le_maxIndex hlimit i).mp hreused
    refine ⟨fun hsame => hreused.2.1 (hsame ▸ hi), m, hm, hlt.trans_le hle⟩
  · rintro ⟨happlies, m, hm, hlt⟩
    have hnext := nextIndex_eq (hlimit k (Nat.le_succ k))
    obtain ⟨hk, hedit⟩ := List.getElem?_eq_some_iff.mp hadd
    have hstep : reached edits (k + 1) = (reached edits k).addRule path rule asGroup := by
      rw [reached_succ hk, hedit]
      rfl
    rw [hstep] at happlies
    have hgiven := ((extends_addRule _ path rule asGroup).resolve_left happlies).subset
    refine ⟨(reached edits k).nextIndex, (reused_iff_le_maxIndex hlimit _).mpr ⟨?_, ?_, m, hm, ?_⟩⟩
    · rw [hstep]
      exact hgiven (nextIndex_mem_freeIndices (by split <;> decide))
    · omega
    · omega

/-- A rule is added and removed, and a group is added in its place. -/
def replacingEdits : List Edit :=
  [.addRule [] none false, .removeChild [] 1, .addRule [] none true]

/-- The group gets the index of the removed rule, and the rule in it a new one. -/
theorem reused_iff_replacingEdits :
    replacingEdits[2]? = some (.addRule [] none true) ∧
      (∀ m ≤ 3, ∀ i ∈ (reached replacingEdits m).indices, i < indexLimit) ∧
      (reached replacingEdits 3).indices = [0, 1, 2, 3] ∧ Reused replacingEdits 2 2 ∧
      ¬ Reused replacingEdits 2 3 := by
  have hlimit : ∀ m ≤ 3, ∀ i ∈ (reached replacingEdits m).indices, i < indexLimit := by decide
  have hadd : replacingEdits[2]? = some (.addRule [] none true) := rfl
  obtain ⟨hiff, -⟩ := reused_iff hadd hlimit
  refine ⟨hadd, hlimit, by decide, ?_, ?_⟩
  · rw [hiff]
    decide
  · rw [hiff]
    decide

/-- **So an index that a removed node had can come back:** here that of the first rule added. -/
theorem reused_of_removed :
    let edits : List Edit := [.addRule [] none false, .removeChild [] 1, .addRule [] none false]
    (∀ m ≤ 3, ∀ i ∈ (reached edits m).indices, i < indexLimit) ∧ Reused edits 2 2 := by
  decide

end AccessFilter.Group
