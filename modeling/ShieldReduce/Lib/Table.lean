import Mathlib.Data.List.AList

/-!
# Finite tables

An `unordered_map` is an `AList` whose values do not depend on the key; a map to vectors grows by
`push`.
-/

namespace ShieldReduce.Lib

abbrev Table (K V : Type) : Type := AList (fun _ : K => V)

namespace Table
variable {K V : Type} [DecidableEq K]

theorem lookup_insert_ite (t : Table K V) (k k' : K) (v : V) :
    (t.insert k v).lookup k' = if k' = k then some v else t.lookup k' := by
  by_cases h : k' = k
  · subst h
    rw [if_pos rfl]
    exact AList.lookup_insert t
  · rw [if_neg h]
    exact AList.lookup_insert_ne h

theorem lookup_erase_ite (t : Table K V) (k k' : K) :
    (t.erase k).lookup k' = if k' = k then none else t.lookup k' := by
  by_cases h : k' = k
  · subst h
    rw [if_pos rfl]
    exact AList.lookup_erase k' t
  · rw [if_neg h]
    exact AList.lookup_erase_ne h

theorem lookup_of_keys_nil {t : Table K V} (h : t.keys = []) (k : K) : t.lookup k = none := by
  apply AList.lookup_eq_none.mpr
  intro hk
  have hmem := AList.mem_keys.mp hk
  rw [h] at hmem
  exact absurd hmem List.not_mem_nil

theorem eq_empty {t : Table K V} (h : ∀ k, t.lookup k = none) : t = ∅ := by
  apply AList.ext
  apply List.eq_nil_iff_forall_not_mem.mpr
  rintro ⟨k, v⟩ hmem
  have hlook := AList.mem_lookup_iff.mpr hmem
  rw [h k] at hlook
  exact absurd hlook (by simp)

/-- The vector at `k`, empty when there is none. -/
def vec (t : Table K (List V)) (k : K) : List V := (t.lookup k).getD []

/-- `t[k].push_back(x)` -/
def push (t : Table K (List V)) (k : K) (x : V) : Table K (List V) :=
  t.insert k (vec t k ++ [x])

theorem vec_push (t : Table K (List V)) (k k' : K) (x : V) :
    vec (push t k x) k' = if k' = k then vec t k ++ [x] else vec t k' := by
  unfold push
  conv_lhs => unfold vec
  rw [lookup_insert_ite]
  by_cases h : k' = k
  · rw [if_pos h, if_pos h]
    rfl
  · rw [if_neg h, if_neg h]
    rfl

theorem vec_erase (t : Table K (List V)) (k k' : K) :
    vec (t.erase k) k' = if k' = k then [] else vec t k' := by
  conv_lhs => unfold vec
  rw [lookup_erase_ite]
  by_cases h : k' = k
  · rw [if_pos h, if_pos h]
    rfl
  · rw [if_neg h, if_neg h]
    rfl

/-- Writing through the value at `k`. -/
def modify (t : Table K V) (k : K) (f : V → V) : Table K V :=
  match t.lookup k with
  | some v => t.insert k (f v)
  | none => t

theorem lookup_modify (t : Table K V) (k k' : K) (f : V → V) :
    (modify t k f).lookup k' = if k' = k then (t.lookup k).map f else t.lookup k' := by
  unfold modify
  cases h : t.lookup k with
  | some v => rw [lookup_insert_ite, Option.map_some]
  | none =>
    by_cases hk : k' = k
    · rw [if_pos hk, hk, h, Option.map_none]
    · rw [if_neg hk]

/-- Inserting pairs one after the other adds no binding but theirs. -/
theorem lookup_foldl_insert {P : K → V → Prop} {pairs : List (K × V)} {t : Table K V}
    (ht : ∀ k v, t.lookup k = some v → P k v) (hp : ∀ p ∈ pairs, P p.1 p.2) (k : K) (v : V)
    (h : (pairs.foldl (fun t p => t.insert p.1 p.2) t).lookup k = some v) : P k v := by
  induction pairs generalizing t with
  | nil => exact ht k v h
  | cons p pairs ih =>
    refine ih ?_ (fun q hq => hp q (List.mem_cons_of_mem p hq)) h
    intro k' v' hk'
    rw [lookup_insert_ite] at hk'
    by_cases hkp : k' = p.1
    · rw [if_pos hkp, Option.some.injEq] at hk'
      rw [hkp, ← hk']
      exact hp p (by simp)
    · rw [if_neg hkp] at hk'
      exact ht k' v' hk'

/-- Where equal keys come with equal values, inserting pairs adds them and overwrites their keys. -/
theorem lookup_foldl_insert_iff {pairs : List (K × V)} {t : Table K V}
    (hfun : ∀ p ∈ pairs, ∀ q ∈ pairs, p.1 = q.1 → p.2 = q.2) (k : K) (v : V) :
    (pairs.foldl (fun t p => t.insert p.1 p.2) t).lookup k = some v ↔
      (k, v) ∈ pairs ∨ (∀ p ∈ pairs, p.1 ≠ k) ∧ t.lookup k = some v := by
  induction pairs generalizing t with
  | nil => simp
  | cons p pairs ih =>
    have hrest : ∀ q ∈ pairs, ∀ q' ∈ pairs, q.1 = q'.1 → q.2 = q'.2 := fun q hq q' hq' =>
      hfun q (List.mem_cons_of_mem p hq) q' (List.mem_cons_of_mem p hq')
    rw [List.foldl_cons, ih hrest, lookup_insert_ite, List.mem_cons, List.forall_mem_cons]
    by_cases hk : k = p.1
    · subst hk
      rw [if_pos rfl, Option.some.injEq]
      constructor
      · rintro (hmem | ⟨-, rfl⟩)
        · exact Or.inl (Or.inr hmem)
        · exact Or.inl (Or.inl rfl)
      · rintro ((heq | hmem) | ⟨⟨hne, -⟩, -⟩)
        · have hv : p.2 = v := (congrArg Prod.snd heq).symm
          by_cases hmem : ∃ q ∈ pairs, q.1 = p.1
          · obtain ⟨q, hq, hqp⟩ := hmem
            have hqv := hfun q (List.mem_cons_of_mem p hq) p List.mem_cons_self hqp
            rw [← hqp, ← hv, ← hqv]
            exact Or.inl hq
          · exact Or.inr ⟨fun q hq hqp => hmem ⟨q, hq, hqp⟩, hv⟩
        · exact Or.inl hmem
        · exact absurd rfl hne
    · rw [if_neg hk]
      have hkv : (k, v) ≠ p := fun heq => hk (congrArg Prod.fst heq)
      have hpk : p.1 ≠ k := fun heq => hk heq.symm
      simp only [hkv, false_or, hpk, ne_eq, not_false_eq_true, true_and]

/-- `map.insert` of a pair, which leaves a key that is there alone. -/
def insertNew (t : Table K V) (k : K) (v : V) : Table K V :=
  match t.lookup k with
  | some _ => t
  | none => t.insert k v

theorem lookup_insertNew (t : Table K V) (k k' : K) (v : V) :
    (insertNew t k v).lookup k' =
      if k' = k ∧ t.lookup k = none then some v else t.lookup k' := by
  unfold insertNew
  cases h : t.lookup k with
  | some w => rw [if_neg (by simp)]
  | none =>
    dsimp only
    rw [lookup_insert_ite]
    by_cases hk : k' = k
    · rw [if_pos hk, if_pos ⟨hk, rfl⟩]
    · rw [if_neg hk, if_neg fun hc => hk hc.1]

/-- Inserting pairs with distinct new keys adds them and nothing else. -/
theorem lookup_foldl_insertNew {pairs : List (K × V)} {t : Table K V}
    (hnodup : (pairs.map Prod.fst).Nodup) (hnew : ∀ p ∈ pairs, t.lookup p.1 = none) (k : K) (v : V) :
    (pairs.foldl (fun t p => insertNew t p.1 p.2) t).lookup k = some v ↔
      t.lookup k = some v ∨ (k, v) ∈ pairs := by
  induction pairs generalizing t with
  | nil => simp
  | cons p pairs ih =>
    obtain ⟨hp, hnodup⟩ := List.nodup_cons.mp hnodup
    have hfresh : t.lookup p.1 = none := hnew p (by simp)
    have hlook : ∀ k', (insertNew t p.1 p.2).lookup k' =
        if k' = p.1 then some p.2 else t.lookup k' := by
      intro k'
      rw [lookup_insertNew]
      simp [hfresh]
    rw [List.foldl_cons, ih hnodup]
    · rw [hlook k, List.mem_cons, Prod.ext_iff]
      by_cases hk : k = p.1
      · rw [if_pos hk, hk, hfresh, Option.some.injEq]
        constructor
        · rintro (hv | hmem)
          · exact Or.inr (Or.inl ⟨rfl, hv.symm⟩)
          · exact Or.inr (Or.inr hmem)
        · rintro (hv | hv | hmem)
          · simp at hv
          · exact Or.inl hv.2.symm
          · exact Or.inr hmem
      · rw [if_neg hk]
        simp [hk]
    · intro q hq
      rw [hlook q.1, if_neg]
      · exact hnew q (List.mem_cons_of_mem p hq)
      · intro heq
        exact hp (List.mem_map.mpr ⟨q, hq, heq⟩)

/-- After pushing pairs one after the other a key has its old vector and what was pushed to it. -/
theorem lookup_foldl_push {pairs : List (K × V)} {t : Table K (List V)} (k : K) :
    (pairs.foldl (fun t p => push t p.1 p.2) t).lookup k =
      if pairs.filter (fun p => p.1 = k) = [] then t.lookup k
      else some (vec t k ++ (pairs.filter fun p => p.1 = k).map Prod.snd) := by
  induction pairs generalizing t with
  | nil => simp
  | cons p pairs ih =>
    rw [List.foldl_cons, ih]
    by_cases hk : p.1 = k
    · subst hk
      have hlook : (push t p.1 p.2).lookup p.1 = some (vec t p.1 ++ [p.2]) := by
        unfold push
        rw [lookup_insert_ite, if_pos rfl]
      rw [vec_push, if_pos rfl, hlook, List.filter_cons_of_pos (by simp)]
      by_cases hrest : pairs.filter (fun q => q.1 = p.1) = []
      · rw [hrest]
        rfl
      · rw [if_neg hrest, if_neg (List.cons_ne_nil _ _), List.map_cons, List.append_assoc]
        rfl
    · have hlook : (push t p.1 p.2).lookup k = t.lookup k := by
        unfold push
        rw [lookup_insert_ite, if_neg fun h => hk h.symm]
      have hvec : vec (push t p.1 p.2) k = vec t k := by
        rw [vec_push, if_neg fun h => hk h.symm]
      rw [hvec, hlook, List.filter_cons_of_neg (by simpa using hk)]

/-- The pairs of a table. -/
def pairs (t : Table K V) : List (K × V) := t.entries.map fun p => (p.1, p.2)

theorem mem_pairs {t : Table K V} {k : K} {v : V} : (k, v) ∈ pairs t ↔ t.lookup k = some v := by
  have hmem := @AList.mem_lookup_iff K (fun _ => V) _ k v t
  rw [Option.mem_def] at hmem
  rw [hmem]
  unfold pairs
  constructor
  · intro h
    obtain ⟨p, hp, heq⟩ := List.mem_map.mp h
    obtain ⟨rfl, rfl⟩ := Prod.mk.inj heq
    exact hp
  · intro h
    exact List.mem_map.mpr ⟨_, h, rfl⟩

omit [DecidableEq K] in
theorem pairs_nodup (t : Table K V) : ((pairs t).map Prod.fst).Nodup := by
  have hkeys : (pairs t).map Prod.fst = t.entries.keys := by
    unfold pairs List.keys
    rw [List.map_map]
    rfl
  rw [hkeys]
  exact t.nodupKeys

end Table
end ShieldReduce.Lib
