import Mathlib.Data.List.Induction
import Mathlib.Logic.Function.Iterate
import ShieldReduce.Prototype.BatchSteps
import ShieldReduce.Prototype.Offline

/-!
# The pending pairs of a pass

What `Ocall_LocalInsert` collects, what `Ocall_Localrevise` makes of it, and the batches in which
`Ocall_GetLocal` hands it over.
-/

namespace ShieldReduce.Prototype
open Lib Store EDelta

section Collected
variable {pairs : List (Fp × Fp)} {s : Server}

/-- The new bases of an old one in the order of their insertion. -/
def newBases (pairs : List (Fp × Fp)) (old : Fp) : List Fp :=
  (pairs.filter fun p => p.1 = old).map Prod.snd

theorem newBases_snoc (pairs : List (Fp × Fp)) (p : Fp × Fp) (old : Fp) :
    newBases (pairs ++ [p]) old = newBases pairs old ++ if p.1 = old then [p.2] else [] := by
  unfold newBases
  rw [List.filter_append, List.map_append]
  by_cases hold : p.1 = old
  · rw [if_pos hold, List.filter_cons_of_pos (by simpa using hold)]
    rfl
  · rw [if_neg hold, List.filter_cons_of_neg (by simpa using hold)]
    rfl

theorem mem_newBases {old new : Fp} : new ∈ newBases pairs old ↔ (old, new) ∈ pairs := by
  unfold newBases
  rw [List.mem_map]
  constructor
  · rintro ⟨p, hp, rfl⟩
    obtain ⟨hmem, hold⟩ := List.mem_filter.mp hp
    have heq : p.1 = old := by simpa using hold
    rw [← heq]
    exact hmem
  · intro hmem
    exact ⟨(old, new), List.mem_filter.mpr ⟨hmem, by simp⟩, rfl⟩

/-- The last new base of an old one is in `_local_tmp_map`, those it superseded are in `skipMap`. -/
theorem localInsert_collects (htmp : s.local_tmp_map = ∅) (hskip : s.skipMap = ∅)
    (pairs : List (Fp × Fp)) (old : Fp) :
    (Ocall_LocalInsert pairs s).local_tmp_map.lookup old = (newBases pairs old).getLast? ∧
      Table.vec (Ocall_LocalInsert pairs s).skipMap old = (newBases pairs old).dropLast := by
  induction pairs using List.reverseRecOn generalizing old with
  | nil =>
    change s.local_tmp_map.lookup old = none ∧ Table.vec s.skipMap old = []
    rw [htmp, hskip]
    exact ⟨AList.lookup_empty old, rfl⟩
  | append_singleton pairs p ih =>
    have hsnoc : Ocall_LocalInsert (pairs ++ [p]) s = localInsert (Ocall_LocalInsert pairs s) p :=
      List.foldl_append
    rw [hsnoc, newBases_snoc]
    obtain ⟨htmp', hskip'⟩ := ih p.1
    constructor
    · rw [tmp_localInsert]
      by_cases hold : old = p.1
      · rw [if_pos hold, if_pos hold.symm, List.getLast?_concat]
      · rw [if_neg hold, if_neg fun heq => hold heq.symm, List.append_nil]
        exact (ih old).1
    · unfold localInsert
      dsimp only
      rw [htmp']
      by_cases hold : p.1 = old
      · subst hold
        rw [if_pos rfl, List.dropLast_concat]
        cases hlast : (newBases pairs p.1).getLast? with
        | none =>
          rw [List.getLast?_eq_none_iff] at hlast
          rw [hskip', hlast]
          rfl
        | some superseded =>
          dsimp only
          rw [Table.vec_push, if_pos rfl, hskip', List.dropLast_append_getLast? _ hlast]
      · rw [if_neg hold, List.append_nil, ← (ih old).2]
        cases (newBases pairs p.1).getLast? with
        | none => rfl
        | some superseded =>
          dsimp only
          rw [Table.vec_push, if_neg fun heq => hold heq.symm]

end Collected

section Greedy
variable {pairs : List (Fp × Fp)} {s : Server}

/-- Every old base, and every new base but the last, goes with the last new base. -/
def Prepared (pairs : List (Fp × Fp)) (old new : Fp) : Prop :=
  ∃ b, (newBases pairs b).getLast? = some new ∧ (old = b ∨ old ∈ (newBases pairs b).dropLast)

/-- The pairs of `local_greedy_basemap` in the order of their insertion. -/
def greedyPairs (s : Server) : List (Fp × Fp) :=
  s.local_tmp_map.entries.flatMap fun p =>
    (p.1, p.2) :: (Table.vec s.skipMap p.1).map fun superseded => (superseded, p.2)

theorem local_greedy_basemap_eq (s : Server) : local_greedy_basemap s =
    (greedyPairs s).foldl (fun greedy p => greedy.insert p.1 p.2) ∅ := by
  unfold local_greedy_basemap greedyPairs
  rw [List.foldl_flatMap]
  congr 1
  funext greedy p
  rw [List.foldl_cons, List.foldl_map]

theorem mem_greedyPairs {old new : Fp} : (old, new) ∈ greedyPairs s ↔
    ∃ b, s.local_tmp_map.lookup b = some new ∧ (old = b ∨ old ∈ Table.vec s.skipMap b) := by
  unfold greedyPairs
  rw [List.mem_flatMap]
  constructor
  · rintro ⟨p, hp, hmem⟩
    have hlook : s.local_tmp_map.lookup p.1 = some p.2 := AList.mem_lookup_iff.mpr hp
    rcases List.mem_cons.mp hmem with heq | hmem
    · obtain ⟨rfl, rfl⟩ := Prod.mk.inj heq
      exact ⟨p.1, hlook, Or.inl rfl⟩
    · obtain ⟨superseded, hsup, heq⟩ := List.mem_map.mp hmem
      obtain ⟨rfl, rfl⟩ := Prod.mk.inj heq
      exact ⟨p.1, hlook, Or.inr hsup⟩
  · rintro ⟨b, hb, hold⟩
    refine ⟨⟨b, new⟩, AList.mem_lookup_iff.mp hb, ?_⟩
    rcases hold with rfl | hold
    · exact List.mem_cons_self
    · exact List.mem_cons_of_mem _ (List.mem_map.mpr ⟨old, hold, rfl⟩)

/-- New bases are new: none comes twice, and none is an old base. -/
structure Fresh (pairs : List (Fp × Fp)) : Prop where
  once : (pairs.map Prod.snd).Nodup
  notOld : ∀ p ∈ pairs, ∀ q ∈ pairs, p.2 ≠ q.1

theorem mem_of_getLast {b new : Fp} (h : (newBases pairs b).getLast? = some new) :
    (b, new) ∈ pairs := mem_newBases.mp (List.mem_of_getLast? h)

theorem mem_of_dropLast {b new : Fp} (h : new ∈ (newBases pairs b).dropLast) : (b, new) ∈ pairs :=
  mem_newBases.mp ((List.dropLast_subset _) h)

theorem Fresh.same (h : Fresh pairs) {b b' new : Fp} (hb : (b, new) ∈ pairs)
    (hb' : (b', new) ∈ pairs) : b = b' :=
  (Prod.mk.inj (List.inj_on_of_nodup_map h.once hb hb' rfl)).1

/-- Each key has one value. -/
theorem Prepared.unique (h : Fresh pairs) {old new new' : Fp} (hnew : Prepared pairs old new)
    (hnew' : Prepared pairs old new') : new = new' := by
  obtain ⟨b, hlast, hold⟩ := hnew
  obtain ⟨b', hlast', hold'⟩ := hnew'
  have hb : b = b' := by
    rcases hold with rfl | hold
    · rcases hold' with rfl | hold'
      · rfl
      · exact absurd rfl (h.notOld _ (mem_of_dropLast hold') _ (mem_of_getLast hlast))
    · rcases hold' with rfl | hold'
      · exact absurd rfl (h.notOld _ (mem_of_dropLast hold) _ (mem_of_getLast hlast'))
      · exact h.same (mem_of_dropLast hold) (mem_of_dropLast hold')
  subst hb
  exact Option.some.inj (hlast.symm.trans hlast')

/-- No chunk is both encoded again and a base in one pass. -/
theorem Prepared.apart (h : Fresh pairs) {old new old' new' : Fp} (hnew : Prepared pairs old new)
    (hnew' : Prepared pairs old' new') : new ≠ old' := by
  obtain ⟨b, hlast, -⟩ := hnew
  obtain ⟨b', hlast', hold'⟩ := hnew'
  rintro rfl
  rcases hold' with rfl | hold'
  · exact h.notOld _ (mem_of_getLast hlast) _ (mem_of_getLast hlast') rfl
  · obtain rfl : b = b' := h.same (mem_of_getLast hlast) (mem_of_dropLast hold')
    have hnodup : (newBases pairs b).Nodup := h.once.sublist (List.filter_sublist.map Prod.snd)
    have hsplit := List.dropLast_append_getLast? _ hlast
    rw [← hsplit] at hnodup
    exact (List.nodup_append.mp hnodup).2.2 new hold' new (List.mem_singleton.mpr rfl) rfl

theorem greedy_prepared (htmp : s.local_tmp_map = ∅) (hskip : s.skipMap = ∅) (h : Fresh pairs)
    (old new : Fp) :
    (local_greedy_basemap (Ocall_LocalInsert pairs s)).lookup old = some new ↔
      Prepared pairs old new := by
  have hmem : ∀ {old new}, (old, new) ∈ greedyPairs (Ocall_LocalInsert pairs s) ↔
      Prepared pairs old new := by
    intro old new
    rw [mem_greedyPairs]
    unfold Prepared
    simp only [localInsert_collects htmp hskip]
  rw [local_greedy_basemap_eq, Table.lookup_foldl_insert_iff, hmem]
  · constructor
    · rintro (hprep | ⟨-, hnone⟩)
      · exact hprep
      · rw [AList.lookup_empty] at hnone
        cases hnone
    · exact Or.inl
  · intro p hp q hq heq
    have hq' : Prepared pairs p.1 q.2 := by
      rw [heq]
      exact hmem.mp hq
    exact Prepared.unique h (hmem.mp hp) hq'

end Greedy

section Batches
variable {s : Server}

/-- The pairs that the next `Ocall_GetLocal` hands over. -/
def localBatch (s : Server) : List (Fp × Fp) :=
  s.local_map.reverse.take (min s.local_map.length Local_Batch)

/-- The pairs of the call after `i` calls. -/
def handedOver (s : Server) (i : Nat) : List (Fp × Fp) := localBatch (Ocall_GetLocal^[i] s)

theorem getLocal_reverse (s : Server) :
    (Ocall_GetLocal s).local_map.reverse = s.local_map.reverse.drop Local_Batch := by
  unfold Ocall_GetLocal
  dsimp only
  rw [List.reverse_take, Nat.sub_sub_self (Nat.min_le_left ..)]
  by_cases hlen : s.local_map.length ≤ Local_Batch
  · rw [Nat.min_eq_left hlen, List.drop_eq_nil_of_le (by simp), List.drop_eq_nil_of_le]
    rw [List.length_reverse]
    exact hlen
  · rw [Nat.min_eq_right (Nat.le_of_not_le hlen)]

theorem getLocal_iterate (s : Server) (i : Nat) :
    (Ocall_GetLocal^[i] s).local_map.reverse = s.local_map.reverse.drop (Local_Batch * i) := by
  induction i with
  | zero => rfl
  | succ i ih =>
    rw [Function.iterate_succ_apply', getLocal_reverse, ih, List.drop_drop, Nat.mul_succ]

theorem localBatch_eq (s : Server) : localBatch s = s.local_map.reverse.take Local_Batch := by
  unfold localBatch
  by_cases hlen : s.local_map.length ≤ Local_Batch
  · rw [Nat.min_eq_left hlen, List.take_of_length_le (by simp), List.take_of_length_le]
    rw [List.length_reverse]
    exact hlen
  · rw [Nat.min_eq_right (Nat.le_of_not_le hlen)]

theorem handedOver_eq (s : Server) (i : Nat) :
    handedOver s i = (s.local_map.reverse.drop (Local_Batch * i)).take Local_Batch := by
  unfold handedOver
  rw [localBatch_eq, getLocal_iterate]

theorem flatMap_batches {α : Type} (l : List α) (n k : Nat) :
    ((List.range k).flatMap fun i => (l.drop (n * i)).take n) = l.take (n * k) := by
  induction k with
  | zero => rfl
  | succ k ih =>
    rw [List.range_succ, List.flatMap_append, ih, List.flatMap_singleton, Nat.mul_succ,
      List.take_add]

/-- Every pair is handed over once, in batches of at most `Local_Batch`, and then nothing. -/
structure HandsOver (s : Server) : Prop where
  batches : ∃ k, ((List.range k).flatMap (handedOver s)) = s.local_map.reverse ∧
    (∀ i, i < k → handedOver s i ≠ []) ∧ ∀ i, k ≤ i → handedOver s i = []
  small : ∀ i, (handedOver s i).length ≤ Local_Batch
  copied : ∀ i old new, (Ocall_GetLocal^[i + 1] s).local_basemap.lookup old = some new ↔
    (old, new) ∈ handedOver s i

theorem handsOver (hnodup : (s.local_map.map Prod.fst).Nodup) : HandsOver s := by
  refine ⟨⟨(s.local_map.length + Local_Batch - 1) / Local_Batch, ?_, ?_, ?_⟩, ?_, ?_⟩
  · have hbatches : handedOver s =
        fun i => (s.local_map.reverse.drop (Local_Batch * i)).take Local_Batch := by
      funext i
      exact handedOver_eq s i
    rw [hbatches, flatMap_batches]
    apply List.take_of_length_le
    rw [List.length_reverse]
    unfold Local_Batch
    omega
  · intro i hi
    rw [handedOver_eq]
    apply List.ne_nil_of_length_pos
    rw [List.length_take, List.length_drop, List.length_reverse]
    unfold Local_Batch at hi ⊢
    omega
  · intro i hi
    rw [handedOver_eq, List.drop_eq_nil_of_le, List.take_nil]
    rw [List.length_reverse]
    unfold Local_Batch at hi ⊢
    omega
  · intro i
    rw [handedOver_eq]
    exact List.length_take_le ..
  · intro i old new
    rw [Function.iterate_succ_apply']
    change ((handedOver s i).foldl (fun (m : Table Fp Fp) p => m.insert p.1 p.2) ∅).lookup old =
      some new ↔ _
    rw [Table.lookup_foldl_insert_iff]
    · simp
    · intro p hp q hq heq
      rw [handedOver_eq] at hp hq
      have hmem : ∀ r ∈ (s.local_map.reverse.drop (Local_Batch * i)).take Local_Batch,
          r ∈ s.local_map := fun r hr =>
        List.mem_reverse.mp (List.mem_of_mem_drop (List.mem_of_mem_take hr))
      rw [List.inj_on_of_nodup_map hnodup (hmem p hp) (hmem q hq) heq]

end Batches

section Pass

theorem Ocall_LocalInsert_local_map (pairs : List (Fp × Fp)) (s : Server) :
    (Ocall_LocalInsert pairs s).local_map = s.local_map := by
  induction pairs generalizing s with
  | nil => rfl
  | cons p pairs ih => exact ih (localInsert s p)

theorem exists_greedyOrder (s : Server) : ∃ order, greedyOrder s order := by
  refine ⟨(((local_greedy_basemap s).entries.map fun p => (p.1, p.2)).mergeSort
    fun p q => deltachunk_num s p.1 ≤ deltachunk_num s q.1), List.mergeSort_perm .., ?_⟩
  have htrans : ∀ a b c : Fp × Fp, decide (deltachunk_num s a.1 ≤ deltachunk_num s b.1) = true →
      decide (deltachunk_num s b.1 ≤ deltachunk_num s c.1) = true →
      decide (deltachunk_num s a.1 ≤ deltachunk_num s c.1) = true := by
    intro a b c hab hbc
    exact decide_eq_true (Nat.le_trans (of_decide_eq_true hab) (of_decide_eq_true hbc))
  have htotal : ∀ a b : Fp × Fp, (decide (deltachunk_num s a.1 ≤ deltachunk_num s b.1) ||
      decide (deltachunk_num s b.1 ≤ deltachunk_num s a.1)) = true := by
    intro a b
    simpa using Nat.le_total (deltachunk_num s a.1) (deltachunk_num s b.1)
  exact (List.pairwise_mergeSort htrans htotal _).imp fun hle => of_decide_eq_true hle

/-- The pairs of a pass: an old base goes with its last new base, the bases that one superseded go
with it too, each once, none is a new base, and they are handed over in batches. -/
theorem localrevise_prepares (s : Server) (htmp : s.local_tmp_map = ∅) (hskip : s.skipMap = ∅)
    (hlocal : s.local_map = []) (batches : List (List (Fp × Fp)))
    (h : Fresh batches.flatten) :
    (∃ order, greedyOrder (batches.foldl (fun s pairs => Ocall_LocalInsert pairs s) s) order) ∧
    ∀ order, greedyOrder (batches.foldl (fun s pairs => Ocall_LocalInsert pairs s) s) order →
      ∀ t, t = Ocall_Localrevise order
          (batches.foldl (fun s pairs => Ocall_LocalInsert pairs s) s) →
        (∀ old new, (old, new) ∈ t.local_map ↔ Prepared batches.flatten old new) ∧
        (t.local_map.map Prod.fst).Nodup ∧
        (∀ p ∈ t.local_map, ∀ q ∈ t.local_map, p.2 ≠ q.1) ∧
        (t.local_map.Pairwise fun p q => deltachunk_num t p.1 ≤ deltachunk_num t q.1) ∧
        HandsOver t := by
  have hflat : ∀ s : Server, batches.foldl (fun s pairs => Ocall_LocalInsert pairs s) s =
      Ocall_LocalInsert batches.flatten s := by
    intro s
    unfold Ocall_LocalInsert
    rw [List.foldl_flatten]
  rw [hflat]
  refine ⟨exists_greedyOrder _, ?_⟩
  rintro order ⟨hperm, hsorted⟩ t rfl
  have hmap : (Ocall_Localrevise order (Ocall_LocalInsert batches.flatten s)).local_map = order := by
    unfold Ocall_Localrevise
    dsimp only
    rw [Ocall_LocalInsert_local_map, hlocal, List.nil_append]
  have hmem : ∀ old new, (old, new) ∈ order ↔ Prepared batches.flatten old new := by
    intro old new
    rw [hperm.mem_iff]
    change (old, new) ∈ Table.pairs _ ↔ _
    rw [Table.mem_pairs, greedy_prepared htmp hskip h]
  have hkeys : (order.map Prod.fst).Nodup :=
    (hperm.map Prod.fst).nodup_iff.mpr (Table.pairs_nodup _)
  refine ⟨?_, ?_, ?_, ?_, ?_⟩
  · rw [hmap]
    exact hmem
  · rw [hmap]
    exact hkeys
  · rw [hmap]
    intro p hp q hq
    exact Prepared.apart h ((hmem p.1 p.2).mp hp) ((hmem q.1 q.2).mp hq)
  · rw [hmap]
    exact hsorted
  · apply handsOver
    rw [hmap]
    exact hkeys

def pendingLetters : List (List (Fp × Fp)) :=
  [[(FixedBytes.fill 32 65, FixedBytes.fill 32 66)], [(FixedBytes.fill 32 65, FixedBytes.fill 32 67)]]

theorem localrevise_prepares_letters :
    (∃ order, greedyOrder (pendingLetters.foldl (fun s pairs => Ocall_LocalInsert pairs s)
      (Server.start false true)) order) ∧
    ∀ order, greedyOrder (pendingLetters.foldl (fun s pairs => Ocall_LocalInsert pairs s)
        (Server.start false true)) order →
      ∀ t, t = Ocall_Localrevise order
          (pendingLetters.foldl (fun s pairs => Ocall_LocalInsert pairs s)
            (Server.start false true)) →
        (∀ old new, (old, new) ∈ t.local_map ↔ Prepared pendingLetters.flatten old new) ∧
        (t.local_map.map Prod.fst).Nodup ∧
        (∀ p ∈ t.local_map, ∀ q ∈ t.local_map, p.2 ≠ q.1) ∧
        (t.local_map.Pairwise fun p q => deltachunk_num t p.1 ≤ deltachunk_num t q.1) ∧
        HandsOver t :=
  localrevise_prepares (Server.start false true) rfl rfl rfl pendingLetters
    ⟨by decide +kernel, by decide +kernel⟩

end Pass

end ShieldReduce.Prototype
