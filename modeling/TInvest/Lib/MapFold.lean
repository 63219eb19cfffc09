import Mathlib

/-!
# Folding insertions and erasures into an ordered map

What a map holds after a list of keys was written to it one by one, each with the value of
its position, or erased from it. A key written several times keeps the value of its last
position. A map is rebuilt by inserting its entries into the empty map, in any order.
-/

namespace Lib
namespace MapFold

open Std

/-- `j` is the last position of `k` in `ks`. -/
def IsLastIndex {κ : Type} (ks : List κ) (k : κ) (j : ℕ) : Prop :=
  ks[j]? = some k ∧ ∀ i, j < i → ks[i]? ≠ some k

lemma exists_isLastIndex {κ : Type} {ks : List κ} {k : κ} (h : k ∈ ks) :
    ∃ j, IsLastIndex ks k j := by
  induction ks using List.reverseRecOn with
  | nil => exact absurd h (by simp)
  | append_singleton ks x ih =>
    by_cases hx : x = k
    · -- the key is at the end
      refine ⟨ks.length, ?_, ?_⟩
      · rw [List.getElem?_concat_length, hx]
      · intro i hi
        rw [List.getElem?_eq_none (by simp; omega)]
        simp
    · -- otherwise its last position in front is the last one overall
      have hmem : k ∈ ks := by
        rcases List.mem_append.mp h with h | h
        · exact h
        · exact absurd (List.mem_singleton.mp h).symm hx
      obtain ⟨j, hj, hlast⟩ := ih hmem
      have hlt : j < ks.length := (List.getElem?_eq_some_iff.mp hj).1
      refine ⟨j, by rw [List.getElem?_append_left hlt, hj], ?_⟩
      intro i hi
      by_cases hil : i < ks.length
      · rw [List.getElem?_append_left hil]
        exact hlast i hi
      · rw [List.getElem?_append_right (by omega)]
        intro hsome
        exact hx (List.mem_singleton.mp (List.mem_of_getElem? hsome)).symm

variable {κ α : Type} [Ord κ] [TransOrd κ] [LawfulEqOrd κ]

/-- Write `v i` under the `i`-th key, in order. -/
def insertEach (m : ExtTreeMap κ α compare) (ks : List κ) (v : ℕ → α) :
    ExtTreeMap κ α compare :=
  ks.zipIdx.foldl (fun m p => m.insert p.1 (v p.2)) m

/-- Erase the keys, in order. -/
def eraseEach (m : ExtTreeMap κ α compare) (ks : List κ) : ExtTreeMap κ α compare :=
  ks.foldl (fun m k => m.erase k) m

omit [LawfulEqOrd κ] in
lemma insertEach_concat (m : ExtTreeMap κ α compare) (ks : List κ) (k : κ) (v : ℕ → α) :
    insertEach m (ks ++ [k]) v = (insertEach m ks v).insert k (v ks.length) := by
  unfold insertEach
  rw [List.zipIdx_append, List.foldl_append]
  simp

/-- Keys that are not written keep their value. -/
lemma getElem?_insertEach_of_notMem (m : ExtTreeMap κ α compare) {ks : List κ} (v : ℕ → α)
    {k : κ} (h : k ∉ ks) : (insertEach m ks v)[k]? = m[k]? := by
  induction ks using List.reverseRecOn with
  | nil => rfl
  | append_singleton ks x ih =>
    rw [List.mem_append, not_or, List.mem_singleton] at h
    rw [insertEach_concat, ExtTreeMap.getElem?_insert,
      if_neg (by rw [LawfulEqCmp.compare_eq_iff_eq]; exact fun hx => h.2 hx.symm), ih h.1]

/-- A written key holds the value of its last position. -/
lemma getElem?_insertEach_of_last (m : ExtTreeMap κ α compare) {ks : List κ} (v : ℕ → α)
    {k : κ} {j : ℕ} (h : IsLastIndex ks k j) : (insertEach m ks v)[k]? = some (v j) := by
  induction ks using List.reverseRecOn with
  | nil => exact absurd h.1 (by simp)
  | append_singleton ks x ih =>
    rw [insertEach_concat, ExtTreeMap.getElem?_insert]
    by_cases hx : x = k
    · -- the last key is `k`, so its position is the last one
      rw [if_pos (by rw [LawfulEqCmp.compare_eq_iff_eq]; exact hx)]
      have hj : j = ks.length := by
        have hlt : j < (ks ++ [x]).length := (List.getElem?_eq_some_iff.mp h.1).1
        by_contra hne
        refine h.2 ks.length ?_ ?_
        · rw [List.length_append, List.length_singleton] at hlt
          omega
        · rw [List.getElem?_concat_length, hx]
      rw [hj]
    · -- the last write goes to another key, and `j` is a position before it
      rw [if_neg (by rw [LawfulEqCmp.compare_eq_iff_eq]; exact hx)]
      apply ih
      have hlt : j < ks.length := by
        obtain ⟨hlt, hval⟩ := List.getElem?_eq_some_iff.mp h.1
        rw [List.length_append, List.length_singleton] at hlt
        by_contra hge
        have hj : j = ks.length := by omega
        subst hj
        rw [List.getElem_concat_length] at hval
        · exact hx hval
        · rfl
      refine ⟨by rw [← h.1, List.getElem?_append_left hlt], ?_⟩
      intro i hi
      by_cases hil : i < ks.length
      · have hsame : (ks ++ [x])[i]? = ks[i]? := List.getElem?_append_left hil
        rw [← hsame]
        exact h.2 i hi
      · rw [List.getElem?_eq_none (by omega)]
        simp

/-- Erased keys are gone, the others keep their value. -/
lemma getElem?_eraseEach [DecidableEq κ] (m : ExtTreeMap κ α compare) (ks : List κ) (k : κ) :
    (eraseEach m ks)[k]? = if k ∈ ks then none else m[k]? := by
  induction ks generalizing m with
  | nil => simp [eraseEach]
  | cons x ks ih =>
    unfold eraseEach at ih ⊢
    rw [List.foldl_cons, ih, ExtTreeMap.getElem?_erase]
    by_cases hk : k ∈ ks
    · rw [if_pos hk, if_pos (List.mem_cons_of_mem x hk)]
    · rw [if_neg hk]
      by_cases hx : x = k
      · rw [if_pos (by rw [LawfulEqCmp.compare_eq_iff_eq]; exact hx),
          if_pos (by rw [hx]; exact List.mem_cons_self ..)]
      · rw [if_neg (by rw [LawfulEqCmp.compare_eq_iff_eq]; exact hx),
          if_neg (by rw [List.mem_cons, not_or]; exact ⟨fun h => hx h.symm, hk⟩)]

/-- Insert a list of entries, in order. -/
def insertAll (m : ExtTreeMap κ α compare) (entries : List (κ × α)) : ExtTreeMap κ α compare :=
  entries.foldl (fun m e => m.insert e.1 e.2) m

lemma getElem?_insertAll_of_notMem (m : ExtTreeMap κ α compare) {entries : List (κ × α)} {k : κ}
    (h : ∀ e ∈ entries, e.1 ≠ k) : (insertAll m entries)[k]? = m[k]? := by
  induction entries generalizing m with
  | nil => rfl
  | cons e es ih =>
    unfold insertAll at ih ⊢
    rw [List.foldl_cons, ih _ (fun x hx => h x (List.mem_cons_of_mem e hx)),
      ExtTreeMap.getElem?_insert, if_neg]
    rw [LawfulEqCmp.compare_eq_iff_eq]
    exact h e (List.mem_cons_self ..)

/-- With distinct keys, each entry is found after the insertions. -/
lemma getElem?_insertAll_of_mem (m : ExtTreeMap κ α compare) {entries : List (κ × α)} {k : κ}
    {x : α} (hd : (entries.map Prod.fst).Nodup) (h : (k, x) ∈ entries) :
    (insertAll m entries)[k]? = some x := by
  induction entries generalizing m with
  | nil => exact absurd h (by simp)
  | cons e es ih =>
    rw [List.map_cons, List.nodup_cons] at hd
    rcases List.mem_cons.mp h with rfl | hmem
    · -- the keys are distinct, so no later entry overwrites it
      have hrest : ∀ y ∈ es, y.1 ≠ k := by
        intro y hy hyk
        have hmem : y.1 ∈ es.map Prod.fst := List.mem_map_of_mem hy
        rw [hyk] at hmem
        exact hd.1 hmem
      show (insertAll (m.insert k x) es)[k]? = some x
      rw [getElem?_insertAll_of_notMem _ hrest, ExtTreeMap.getElem?_insert_self]
    · exact ih (m.insert e.1 e.2) hd.2 hmem

/-- A map is rebuilt from its entries, in any order. -/
lemma insertAll_of_perm_toList (m : ExtTreeMap κ α compare) {entries : List (κ × α)}
    (h : entries.Perm m.toList) : insertAll ∅ entries = m := by
  -- the entries of a map have distinct keys, in any order
  have hd : (entries.map Prod.fst).Nodup := by
    rw [(h.map Prod.fst).nodup_iff, List.nodup_iff_pairwise_ne, List.pairwise_map]
    refine ExtTreeMap.distinct_keys_toList.imp ?_
    intro a b hab heq
    exact hab (by rw [LawfulEqCmp.compare_eq_iff_eq]; exact heq)
  apply ExtTreeMap.ext_getElem?
  intro k
  cases hk : m[k]? with
  | some x =>
    apply getElem?_insertAll_of_mem ∅ hd
    rw [h.mem_iff, ExtTreeMap.mem_toList_iff_getElem?_eq_some, hk]
  | none =>
    rw [getElem?_insertAll_of_notMem, ExtTreeMap.getElem?_empty]
    intro e he hek
    have hsome : m[e.1]? = some e.2 := by
      rw [← ExtTreeMap.mem_toList_iff_getElem?_eq_some, ← h.mem_iff]
      exact he
    rw [hek, hk] at hsome
    exact absurd hsome (by simp)

end MapFold
end Lib
