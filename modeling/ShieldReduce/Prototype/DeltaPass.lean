import ShieldReduce.Prototype.BatchSteps

/-!
# The delta index during the offline pass

How the pending maps become the pairs of a pass, and what `Easy_update` does to the indexes, pair by
pair.
-/

namespace ShieldReduce.Prototype
open Lib Store EDelta

/-- A base chunk of the FP index. -/
def WholeIn (indexObj : FpIndex) (fp : Fp) : Prop :=
  ∃ e, indexObj.lookup fp = some e ∧ e.deltaFlag = NO_DELTA

/-- The pairs that the pass has still to work on. -/
def Rem (local_basemap : Table Fp Fp) (local_map : List (Fp × Fp)) (o n : Fp) : Prop :=
  local_basemap.lookup o = some n ∨ (o, n) ∈ local_map

structure Remaining (indexObj : FpIndex) (Lost : Fp → Prop) (local_basemap : Table Fp Fp)
    (local_map : List (Fp × Fp)) : Prop where
  old : ∀ {o n}, Rem local_basemap local_map o n → WholeIn indexObj o ∧ ¬Lost o
  new : ∀ {o n}, Rem local_basemap local_map o n → WholeIn indexObj n ∧ ¬Lost n
  apart : ∀ {o n o' n'}, Rem local_basemap local_map o n → Rem local_basemap local_map o' n' →
    n ≠ o'
  nodup : (local_map.map Prod.fst).Nodup
  once : ∀ {o}, o ∈ local_map.map Prod.fst → local_basemap.lookup o = none

/-- What `Easy_update` leaves alone. -/
structure PassFrame (s s' : Server) : Prop where
  local_tmp_map : s'.local_tmp_map = s.local_tmp_map
  skipMap : s'.skipMap = s.skipMap
  local_map : s'.local_map = s.local_map
  local_basemap : s'.local_basemap = s.local_basemap
  inputMQ : s'.inputMQ = s.inputMQ
  writer : s'.writer = s.writer
  inCache : s'.inCache = s.inCache
  phase : s'.phase = s.phase
  times : s.con_times ≤ s'.con_times

theorem PassFrame.trans {s t u : Server} (h : PassFrame s t) (h' : PassFrame t u) :
    PassFrame s u :=
  ⟨h'.local_tmp_map.trans h.local_tmp_map, h'.skipMap.trans h.skipMap,
    h'.local_map.trans h.local_map, h'.local_basemap.trans h.local_basemap,
    h'.inputMQ.trans h.inputMQ, h'.writer.trans h.writer, h'.inCache.trans h.inCache,
    h'.phase.trans h.phase, Nat.le_trans h.times h'.times⟩

section Start
variable {indexObj : FpIndex} {sfObj : SfIndex} {Lost : Fp → Prop}

theorem whole_entry {b : Fp} : Whole (Entry indexObj []) b ↔ WholeIn indexObj b := by
  unfold Whole WholeIn Entry
  simp

/-- Every pair of the greedy map pairs a pending old base, or a chunk that was superseded as its new
one, with the last new one. -/
theorem local_greedy_basemap_sound (s : Server) {o n : Fp}
    (h : (local_greedy_basemap s).lookup o = some n) :
    ∃ b, s.local_tmp_map.lookup b = some n ∧ (o = b ∨ o ∈ Table.vec s.skipMap b) := by
  have hfold : ∀ (l : List (Sigma fun _ : Fp => Fp)) (t : Table Fp Fp),
      (∀ p ∈ l, s.local_tmp_map.lookup p.1 = some p.2) →
      (∀ o n, t.lookup o = some n →
        ∃ b, s.local_tmp_map.lookup b = some n ∧ (o = b ∨ o ∈ Table.vec s.skipMap b)) →
      ∀ o n, (l.foldl (fun greedy p =>
        (Table.vec s.skipMap p.1).foldl (fun greedy superseded => greedy.insert superseded p.2)
          (greedy.insert p.1 p.2)) t).lookup o = some n →
        ∃ b, s.local_tmp_map.lookup b = some n ∧ (o = b ∨ o ∈ Table.vec s.skipMap b) := by
    intro l
    induction l with
    | nil => exact fun t _ ht => ht
    | cons p l ih =>
      intro t hl ht
      have hp := hl p (by simp)
      refine ih _ (fun q hq => hl q (List.mem_cons_of_mem p hq)) ?_
      have hpairs : (Table.vec s.skipMap p.1).foldl
          (fun greedy superseded => greedy.insert superseded p.2) (t.insert p.1 p.2) =
          (((Table.vec s.skipMap p.1).map fun sup => (sup, p.2)).foldl
            (fun t q => t.insert q.1 q.2) (t.insert p.1 p.2)) := by
        rw [List.foldl_map]
      dsimp only
      rw [hpairs]
      apply Table.lookup_foldl_insert
      · intro o n ho
        rw [Table.lookup_insert_ite] at ho
        by_cases hop : o = p.1
        · rw [if_pos hop, Option.some.injEq] at ho
          exact ⟨p.1, by rw [hp, ho], Or.inl hop⟩
        · rw [if_neg hop] at ho
          exact ht o n ho
      · intro q hq
        obtain ⟨sup, hsup, rfl⟩ := List.mem_map.mp hq
        exact ⟨p.1, hp, Or.inr hsup⟩
  refine hfold s.local_tmp_map.entries ∅ ?_ ?_ o n h
  · intro p hp
    exact AList.mem_lookup_iff.mpr hp
  · intro o n ho
    simp at ho

/-- The pairs of a new pass. -/
theorem Remaining.start {s : Server} {delta_index : Table Fp (List Fp)}
    (g : Graph indexObj sfObj delta_index [] [] Lost)
    (h : Pending indexObj sfObj [] s.local_tmp_map s.skipMap Lost) {order : List (Fp × Fp)}
    (horder : greedyOrder s order) : Remaining indexObj Lost ∅ order := by
  have hsound : ∀ {o n}, Rem ∅ order o n →
      ∃ b, s.local_tmp_map.lookup b = some n ∧ (o = b ∨ o ∈ Table.vec s.skipMap b) := by
    rintro o n (hrem | hrem)
    · simp at hrem
    · obtain ⟨p, hp, heq⟩ := List.mem_map.mp ((horder.1.mem_iff).mp hrem)
      rw [Prod.mk.injEq] at heq
      apply local_greedy_basemap_sound s
      rw [← heq.1, ← heq.2]
      exact AList.mem_lookup_iff.mpr hp
  have hnew : ∀ {n}, NewBase indexObj sfObj [] Lost n → WholeIn indexObj n ∧ ¬Lost n :=
    fun hn => ⟨whole_entry.mp hn.whole, hn.kept⟩
  refine ⟨?_, ?_, ?_, ?_, fun _ => AList.lookup_empty _⟩
  · intro o n hrem
    obtain ⟨b, hb, ho⟩ := hsound hrem
    rcases ho with rfl | ho
    · have hpost := h.old hb
      exact ⟨g.posted_whole hpost, fun hlost => g.lost_posted hlost hpost⟩
    · exact hnew (h.superseded ho)
  · intro o n hrem
    obtain ⟨b, hb, _⟩ := hsound hrem
    exact hnew (h.new hb)
  · intro o n o' n' hrem hrem' heq
    obtain ⟨b, hb, _⟩ := hsound hrem
    obtain ⟨b', hb', ho'⟩ := hsound hrem'
    rcases ho' with rfl | ho'
    · have hpost := h.old hb'
      rw [← heq] at hpost
      exact (h.new hb).unposted hpost
    · rw [← heq] at ho'
      exact h.apart hb ho'
  · have hkeys := (local_greedy_basemap s).nodupKeys
    have hfst := horder.1.map Prod.fst
    rw [List.map_map] at hfst
    exact hfst.nodup_iff.mpr hkeys

/-- The next pairs of the pass move to `local_basemap`. -/
theorem Remaining.getLocal {s : Server} (h : Remaining indexObj Lost s.local_basemap s.local_map) :
    Remaining indexObj Lost (Ocall_GetLocal s).local_basemap (Ocall_GetLocal s).local_map := by
  let num := min s.local_map.length Local_Batch
  let keep := s.local_map.length - num
  have hlook : ∀ o n, (Ocall_GetLocal s).local_basemap.lookup o = some n →
      (o, n) ∈ s.local_map.drop keep := by
    apply Table.lookup_foldl_insert
    · intro o n ho
      simp at ho
    · intro p hp
      rw [List.take_reverse, List.mem_reverse] at hp
      exact hp
  have hrem : ∀ {o n}, Rem (Ocall_GetLocal s).local_basemap (Ocall_GetLocal s).local_map o n →
      Rem s.local_basemap s.local_map o n := by
    rintro o n (ho | ho)
    · exact Or.inr (List.mem_of_mem_drop (hlook o n ho))
    · exact Or.inr (List.mem_of_mem_take ho)
  refine ⟨fun hr => h.old (hrem hr), fun hr => h.new (hrem hr),
    fun hr hr' => h.apart (hrem hr) (hrem hr'), ?_, ?_⟩
  · exact h.nodup.sublist ((List.take_sublist keep s.local_map).map Prod.fst)
  · intro o ho
    cases hl : (Ocall_GetLocal s).local_basemap.lookup o with
    | none => rfl
    | some n =>
      have hdrop : o ∈ (s.local_map.drop keep).map Prod.fst :=
        List.mem_map.mpr ⟨_, hlook o n hl, rfl⟩
      have hnodup := h.nodup
      rw [← List.take_append_drop keep s.local_map, List.map_append] at hnodup
      exact absurd rfl (List.nodup_append.mp hnodup |>.2.2 o ho o hdrop)

/-- A pair is done. -/
theorem Remaining.done {local_basemap : Table Fp Fp} {local_map : List (Fp × Fp)}
    (h : Remaining indexObj Lost local_basemap local_map) {old new : Fp}
    (hpair : local_basemap.lookup old = some new) {idx : FpIndex} {Lost' : Fp → Prop}
    (hidx : ∀ b ≠ old, WholeIn indexObj b → WholeIn idx b)
    (hlost : ∀ b ≠ old, Lost' b → Lost b) :
    Remaining idx Lost' (local_basemap.erase old) local_map := by
  have hrem : ∀ {o n}, Rem (local_basemap.erase old) local_map o n →
      Rem local_basemap local_map o n ∧ o ≠ old := by
    rintro o n (ho | ho)
    · rw [Table.lookup_erase_ite] at ho
      by_cases hoo : o = old
      · rw [if_pos hoo] at ho
        simp at ho
      · rw [if_neg hoo] at ho
        exact ⟨Or.inl ho, hoo⟩
    · refine ⟨Or.inr ho, ?_⟩
      rintro rfl
      have hnone := h.once (List.mem_map.mpr ⟨_, ho, rfl⟩)
      rw [hpair] at hnone
      simp at hnone
  have hold : Rem local_basemap local_map old new := Or.inl hpair
  refine ⟨?_, ?_, fun hr hr' => h.apart (hrem hr).1 (hrem hr').1, h.nodup, ?_⟩
  · intro o n hr
    obtain ⟨hr, hne⟩ := hrem hr
    obtain ⟨hw, hl⟩ := h.old hr
    exact ⟨hidx o hne hw, fun hlo => hl (hlost o hne hlo)⟩
  · intro o n hr
    obtain ⟨hr, _⟩ := hrem hr
    obtain ⟨hw, hl⟩ := h.new hr
    have hne := h.apart hr hold
    exact ⟨hidx n hne hw, fun hlo => hl (hlost n hne hlo)⟩
  · intro o ho
    rw [Table.lookup_erase_ite]
    by_cases hoo : o = old
    · rw [if_pos hoo]
    · rw [if_neg hoo]
      exact h.once ho

end Start

section Pair
variable {indexObj : FpIndex} {sfObj : SfIndex} {delta_index : Table Fp (List Fp)}
  {Lost : Fp → Prop}

theorem wholeIn_kinds {b : Fp} (h : WholeIn indexObj b) : kinds indexObj b = some (.whole ()) := by
  obtain ⟨e, he, hflag⟩ := h
  unfold kinds
  rw [he, Option.map_some, kindOf_whole hflag]

theorem kinds_delta {d b : Fp} {u : Unit} :
    kinds indexObj d = some (.delta b u) ↔ DeltaOn (Entry indexObj []) d b := by
  unfold kinds DeltaOn Entry
  constructor
  · intro h
    obtain ⟨e, he, hkind⟩ := Option.map_eq_some_iff.mp h
    unfold kindOf at hkind
    by_cases hflag : e.deltaFlag = DELTA
    · rw [if_pos hflag, View.delta.injEq] at hkind
      exact ⟨e, Or.inl he, hflag, hkind.1⟩
    · rw [if_neg hflag] at hkind
      simp at hkind
  · rintro ⟨e, he | he, hflag, hbase⟩
    · rw [he, Option.map_some, kindOf_delta hflag, hbase]
    · simp at he

theorem kinds_insert (d : Fp) (e : RecipeEntry) :
    kinds (indexObj.insert d e) = Function.update (kinds indexObj) d (some (kindOf e)) := by
  funext fp
  unfold kinds
  rw [Table.lookup_insert_ite]
  by_cases h : fp = d
  · rw [if_pos h, h, Function.update_self, Option.map_some]
  · rw [if_neg h, Function.update_of_ne h]

/-- A chunk outside the super-features becomes a delta against a base that the delta index follows:
a dependent that gets another base, or an old base that has none left. -/
theorem Graph.hot (g : Graph indexObj sfObj delta_index [] [] Lost) {d new : Fp} {e : RecipeEntry}
    (href : Unreferenced (kinds indexObj) d) (hposted : ¬Posted sfObj d)
    (hnot : ∀ b, ¬Lost b → ¬DeltaOn (Entry indexObj []) d b) (hnew : WholeIn indexObj new)
    (hlost : ¬Lost new) (hne : new ≠ d) (hflag : e.deltaFlag = DELTA)
    (hbase : e.basechunkHash = new) :
    Graph (indexObj.insert d e) sfObj (Table.push delta_index new d) [] [] Lost := by
  have hkind : kindOf e = .delta new () := by rw [kindOf_delta hflag, hbase]
  have hentry : ∀ {fp e'}, Entry (indexObj.insert d e) [] fp e' ↔
      (fp = d ∧ e' = e) ∨ (fp ≠ d ∧ Entry indexObj [] fp e') := by
    intro fp e'
    unfold Entry
    rw [Table.lookup_insert_ite]
    by_cases hfp : fp = d
    · rw [if_pos hfp]
      simp [hfp, eq_comm]
    · rw [if_neg hfp]
      simp [hfp]
  refine ⟨?_, ?_, ?_, ?_, g.lost_posted, ?_, ?_⟩
  · intro fp e' he
    rcases hentry.mp he with ⟨_, rfl⟩ | ⟨_, he⟩
    · exact Or.inr hflag
    · exact g.flag he
  · rw [kinds_insert, hkind]
    exact g.depth.insertDelta href (wholeIn_kinds hnew) hne ()
  · intro i k fp hmem
    obtain ⟨e', he', h⟩ := g.posted hmem
    have hfp : fp ≠ d := by
      rintro rfl
      exact hposted ⟨i, k, hmem⟩
    exact ⟨e', by rw [Table.lookup_insert_ite, if_neg hfp, he'], h⟩
  · intro b hb
    rw [Table.lookup_insert_ite]
    by_cases hbd : b = d
    · rw [if_pos hbd]
      exact Option.some_ne_none e
    · rw [if_neg hbd]
      exact g.lost_stored hb
  · intro b hb
    have hn := g.nodup hb
    rw [pairsOn_nil, List.append_nil] at hn ⊢
    rw [Table.vec_push]
    by_cases hbn : b = new
    · subst hbn
      rw [if_pos rfl, List.nodup_append]
      refine ⟨hn, List.nodup_singleton d, ?_⟩
      rintro d' hd' d'' hd'' rfl
      rw [List.mem_singleton] at hd''
      have hl := (g.listed hb d').mp (by rw [pairsOn_nil, List.append_nil]; exact hd')
      rw [hd''] at hl
      exact hnot b hb hl
    · rw [if_neg hbn]
      exact hn
  · intro b hb d'
    have hl := g.listed hb d'
    rw [pairsOn_nil, List.append_nil] at hl ⊢
    rw [Table.vec_push]
    have hstep : DeltaOn (Entry (indexObj.insert d e) []) d' b ↔
        (d' = d ∧ b = new) ∨ DeltaOn (Entry indexObj []) d' b := by
      constructor
      · rintro ⟨e', he', hf, hb'⟩
        rcases hentry.mp he' with ⟨hd, rfl⟩ | ⟨_, he'⟩
        · exact Or.inl ⟨hd, by rw [← hb', hbase]⟩
        · exact Or.inr ⟨e', he', hf, hb'⟩
      · rintro (⟨hd, hbn⟩ | ⟨e', he', h⟩)
        · exact ⟨e, hentry.mpr (Or.inl ⟨hd, rfl⟩), hflag, by rw [hbase, hbn]⟩
        · have hd : d' ≠ d := by
            rintro rfl
            exact hnot b hb ⟨e', he', h⟩
          exact ⟨e', hentry.mpr (Or.inr ⟨hd, he'⟩), h⟩
    rw [hstep, ← hl]
    by_cases hbn : b = new
    · subst hbn
      rw [if_pos rfl, List.mem_append, List.mem_singleton]
      simp [or_comm]
    · rw [if_neg hbn]
      simp [hbn]

theorem EraseSF_vec (s : Server) (sf : SuperFeature) (i : Fin 3) (k : Fp) :
    Table.vec ((EraseSF s sf).sfObj i) k =
      if k = sfKey sf i then [] else Table.vec (s.sfObj i) k :=
  Table.vec_erase _ _ _

theorem ReplaceSF_vec (s : Server) (sf : SuperFeature) (fp : Fp) (i : Fin 3) (k : Fp) :
    Table.vec ((ReplaceSF s sf fp).sfObj i) k =
      if k = sfKey sf i then [fp] else Table.vec (s.sfObj i) k := by
  change Table.vec (Table.push ((s.sfObj i).erase (sfKey sf i)) (sfKey sf i) fp) k = _
  rw [Table.vec_push, Table.vec_erase, Table.vec_erase, if_pos rfl]
  by_cases h : k = sfKey sf i
  · rw [if_pos h, if_pos h]
    rfl
  · rw [if_neg h, if_neg h, if_neg h]

theorem Graph.eraseSF {s : Server} {di : Table Fp (List Fp)}
    (g : Graph s.indexObj s.sfObj di [] [] Lost) (sf : SuperFeature) :
    Graph s.indexObj (EraseSF s sf).sfObj di [] [] Lost := by
  have hsub : ∀ {i k fp}, fp ∈ Table.vec ((EraseSF s sf).sfObj i) k →
      fp ∈ Table.vec (s.sfObj i) k := by
    intro i k fp hmem
    rw [EraseSF_vec] at hmem
    by_cases hk : k = sfKey sf i
    · rw [if_pos hk] at hmem
      simp at hmem
    · rwa [if_neg hk] at hmem
  refine ⟨g.flag, g.depth, fun hmem => g.posted (hsub hmem), g.lost_stored, ?_, g.nodup, g.listed⟩
  rintro b hb ⟨i, k, hmem⟩
  exact g.lost_posted hb ⟨i, k, hsub hmem⟩

/-- The super-features of an old base lead to it no more. -/
theorem Graph.erased {s : Server} {di : Table Fp (List Fp)}
    (g : Graph s.indexObj s.sfObj di [] [] Lost) {old : Fp} {e : RecipeEntry}
    (he : s.indexObj.lookup old = some e) : ¬Posted (EraseSF s e.superfeature).sfObj old := by
  rintro ⟨i, k, hmem⟩
  rw [EraseSF_vec] at hmem
  by_cases hk : k = sfKey e.superfeature i
  · rw [if_pos hk] at hmem
    simp at hmem
  · rw [if_neg hk] at hmem
    obtain ⟨e', he', _, hkey⟩ := g.posted hmem
    rw [he, Option.some.injEq] at he'
    rw [he'] at hk
    exact hk hkey.symm

theorem Graph.replaceSF {s : Server} {di : Table Fp (List Fp)}
    (g : Graph s.indexObj s.sfObj di [] [] Lost) {new : Fp} {e : RecipeEntry}
    (he : s.indexObj.lookup new = some e) (hflag : e.deltaFlag = NO_DELTA) (hlost : ¬Lost new) :
    Graph s.indexObj (ReplaceSF s e.superfeature new).sfObj di [] [] Lost ∧
      ∀ b ≠ new, ¬Posted s.sfObj b → ¬Posted (ReplaceSF s e.superfeature new).sfObj b := by
  have hcases : ∀ {i k fp}, fp ∈ Table.vec ((ReplaceSF s e.superfeature new).sfObj i) k →
      (k = sfKey e.superfeature i ∧ fp = new) ∨ fp ∈ Table.vec (s.sfObj i) k := by
    intro i k fp hmem
    rw [ReplaceSF_vec] at hmem
    by_cases hk : k = sfKey e.superfeature i
    · rw [if_pos hk] at hmem
      exact Or.inl ⟨hk, List.mem_singleton.mp hmem⟩
    · rw [if_neg hk] at hmem
      exact Or.inr hmem
  refine ⟨⟨g.flag, g.depth, ?_, g.lost_stored, ?_, g.nodup, g.listed⟩, ?_⟩
  · intro i k fp hmem
    rcases hcases hmem with ⟨hk, rfl⟩ | hmem
    · exact ⟨e, he, hflag, hk.symm⟩
    · exact g.posted hmem
  · rintro b hb ⟨i, k, hmem⟩
    rcases hcases hmem with ⟨_, rfl⟩ | hmem
    · exact hlost hb
    · exact g.lost_posted hb ⟨i, k, hmem⟩
  · rintro b hb hnot ⟨i, k, hmem⟩
    rcases hcases hmem with ⟨_, rfl⟩ | hmem
    · exact hb rfl
    · exact hnot ⟨i, k, hmem⟩

/-- The delta index drops the dependents of an unposted base. -/
theorem Graph.lose (g : Graph indexObj sfObj delta_index [] [] Lost) {old : Fp}
    (hstored : indexObj.lookup old ≠ none) (hposted : ¬Posted sfObj old) :
    Graph indexObj sfObj (delta_index.erase old) [] [] (fun b => Lost b ∨ b = old) := by
  have hvec : ∀ {b}, b ≠ old → Table.vec (delta_index.erase old) b = Table.vec delta_index b := by
    intro b hb
    rw [Table.vec_erase, if_neg hb]
  refine ⟨g.flag, g.depth, g.posted, ?_, ?_, ?_, ?_⟩
  · rintro b (hb | rfl)
    · exact g.lost_stored hb
    · exact hstored
  · rintro b (hb | rfl)
    · exact g.lost_posted hb
    · exact hposted
  · intro b hb
    rw [not_or] at hb
    rw [hvec hb.2]
    exact g.nodup hb.1
  · intro b hb
    rw [not_or] at hb
    rw [hvec hb.2]
    exact g.listed hb.1

end Pair

section Inversion
variable {env : EnclaveEnv} {s s' : Server}

theorem InsertHot_container_frame (content : Bytes) (recipe : RecipeEntry) (fp : Fp)
    (sf : SuperFeature) (iv : IV) (s : Server) :
    (∃ f h t, (InsertHot_container content recipe fp sf iv s).1 =
        { s with
          files := f
          hot_container := h
          con_times := t } ∧ s.con_times ≤ t) ∧
      ∃ off name, (InsertHot_container content recipe fp sf iv s).2 =
        { recipe with
          offset := off
          deltaFlag := DELTA
          containerName := name } := by
  refine ⟨?_, _, _, rfl⟩
  unfold InsertHot_container
  by_cases hfits : recordFits content s.hot_container.buf.length
  · rw [if_pos hfits]
    exact ⟨s.files, _, s.con_times, rfl, Nat.le_refl _⟩
  · rw [if_neg hfits]
    exact ⟨_, _, s.con_times + 1, rfl, Nat.le_succ _⟩

/-- What `storeHot` does to the indexes. -/
theorem storeHot_indexes (env : EnclaveEnv) (chunkHash newBase : Fp) (recipe : RecipeEntry)
    (new_delta : Bytes) (fp : Fp) (sf : SuperFeature) (iv : IV) (s : Server) :
    (∃ e, e.deltaFlag = DELTA ∧ e.basechunkHash = newBase ∧
      (storeHot env chunkHash newBase recipe new_delta fp sf iv s).indexObj =
        s.indexObj.insert chunkHash e) ∧
      (storeHot env chunkHash newBase recipe new_delta fp sf iv s).sfObj = s.sfObj ∧
      (storeHot env chunkHash newBase recipe new_delta fp sf iv s).delta_index =
        Table.push s.delta_index newBase chunkHash ∧
      PassFrame s (storeHot env chunkHash newBase recipe new_delta fp sf iv s) := by
  obtain ⟨⟨f, h, t, hs, ht⟩, off, name, hrecipe⟩ := InsertHot_container_frame
    (env.EncryptWithKeyIV iv new_delta)
    { recipe with
      length := UInt32.ofNat new_delta.length
      basechunkHash := newBase } fp sf iv s
  unfold storeHot
  dsimp only
  rw [hs, hrecipe]
  exact ⟨⟨_, rfl, rfl, rfl⟩, rfl, rfl, rfl, rfl, rfl, rfl, rfl, rfl, rfl, rfl, ht⟩

/-- One dependent: it is read, and it is moved unless its delta would grow. -/
theorem updateDependent_cases {old_chunk new_chunk : Bytes} {newBase d : Fp} {flag : Bool}
    (h : updateDependent env old_chunk new_chunk newBase d s = some (s', flag)) :
    ∃ recipe body, s.indexObj.lookup d = some recipe ∧
      s.files.lookup (true, recipe.containerName) = some body ∧
      let container := memcpy s.tmpOcallcontainer 0 body
      let iv := getChunkIV container recipe
      let old_unique_chunk := EDeltaDecode
        (env.DecryptionWithKeyIV iv (getChunkContent container recipe)) old_chunk
      let new_delta := EDeltaEncode env.edelta old_unique_chunk new_chunk
      (flag = false ∧ s' = readContainer s body) ∨
        (flag = true ∧ new_delta.length ≤ old_unique_chunk.length ∧ ∃ n,
          s' = storeHot env d newBase recipe new_delta (getChunkFP container recipe)
            (getChunkSF container recipe) iv
            { readContainer s body with offlineCurrBackup_size := n }) := by
  unfold updateDependent at h
  obtain ⟨recipe, hrecipe, h⟩ := Option.bind_eq_some_iff.mp h
  obtain ⟨s₁, hs₁, h⟩ := Option.bind_eq_some_iff.mp h
  obtain ⟨body, hbody, rfl⟩ := Option.map_eq_some_iff.mp hs₁
  refine ⟨recipe, body, hrecipe, hbody, ?_⟩
  dsimp only at h ⊢
  split at h
  · simp only [Option.pure_def, Option.some.injEq, Prod.mk.injEq] at h
    exact Or.inl ⟨h.2.symm, h.1.symm⟩
  case isFalse hlen =>
    simp only [Option.pure_def, Option.some.injEq, Prod.mk.injEq] at h
    exact Or.inr ⟨h.2.symm, Nat.not_lt.mp hlen, _, h.1.symm⟩

/-- The old base: it is left alone, or it becomes a delta because all its dependents moved. -/
theorem updateOldBase_cases (env : EnclaveEnv) (old new : Fp) (old_recipe : RecipeEntry)
    (old_iv : IV) (old_chunk new_chunk : Bytes) (delta_flag : Bool) (s : Server) :
    let new_delta := EDeltaEncode env.edelta old_chunk new_chunk
    (∃ n, updateOldBase env old new old_recipe old_iv old_chunk new_chunk delta_flag s =
      { s with offlineCurrBackup_size := n }) ∨
      (delta_flag = true ∧ new_delta.length ≤ old_chunk.length ∧ ∃ n,
        updateOldBase env old new old_recipe old_iv old_chunk new_chunk delta_flag s =
          storeHot env old new old_recipe new_delta old old_recipe.superfeature old_iv
            { s with offlineCurrBackup_size := n }) := by
  intro new_delta
  unfold updateOldBase
  by_cases hlen : old_chunk.length < new_delta.length
  · left
    rw [if_pos hlen]
    exact ⟨s.offlineCurrBackup_size, rfl⟩
  · rw [if_neg hlen]
    cases delta_flag with
    | true => exact Or.inr ⟨rfl, Nat.not_lt.mp hlen, _, rfl⟩
    | false => exact Or.inl ⟨_, rfl⟩

/-- The state in which a pair's dependents are worked on. -/
def pairStart (old : Fp) (old_recipe new_recipe : RecipeEntry) (new : Fp)
    (old_body new_body : Bytes) (s : Server) : Server :=
  (QueryDeltaIndex (ReplaceSF (readContainer (EraseSF (readContainer s old_body)
    old_recipe.superfeature) new_body) new_recipe.superfeature new) old).2

/-- A pair is skipped when a container is missing; else its dependents are worked on, then the old
base. -/
theorem updatePair_cases {old new : Fp} (h : updatePair env old new s = some s') :
    ∃ old_recipe, s.indexObj.lookup old = some old_recipe ∧
      ((s.files.lookup (false, old_recipe.containerName) = none ∧ s' = s) ∨
        ∃ old_body, s.files.lookup (false, old_recipe.containerName) = some old_body ∧
        ∃ new_recipe, s.indexObj.lookup new = some new_recipe ∧
          ((s.files.lookup (false, new_recipe.containerName) = none ∧
            s' = EraseSF (readContainer s old_body) old_recipe.superfeature) ∨
            ∃ new_body, s.files.lookup (false, new_recipe.containerName) = some new_body ∧
              let old_container := memcpy s.tmpOcallcontainer 0 old_body
              let new_container := memcpy old_container 0 new_body
              let old_iv := getChunkIV old_container old_recipe
              let old_chunk := offlineExpand env old_iv (getChunkContent old_container old_recipe)
              let new_chunk := offlineExpand env (getChunkIV new_container new_recipe)
                (getChunkContent new_container new_recipe)
              ∃ t delta_flag,
                updateDependents env old_chunk new_chunk new (Table.vec s.delta_index old) true
                  (pairStart old old_recipe new_recipe new old_body new_body s) =
                    some (t, delta_flag) ∧
                s' = updateOldBase env old new old_recipe old_iv old_chunk new_chunk
                  delta_flag t)) := by
  unfold updatePair at h
  obtain ⟨old_recipe, hold, h⟩ := Option.bind_eq_some_iff.mp h
  refine ⟨old_recipe, hold, ?_⟩
  cases hc : Ocall_OneContainer old_recipe.containerName s with
  | none =>
    simp only [hc, Option.pure_def, Option.some.injEq] at h
    exact Or.inl ⟨Option.map_eq_none_iff.mp hc, h.symm⟩
  | some s₁ =>
    simp only [hc] at h
    obtain ⟨old_body, hbody, rfl⟩ := Option.map_eq_some_iff.mp hc
    obtain ⟨new_recipe, hnew, h⟩ := Option.bind_eq_some_iff.mp h
    refine Or.inr ⟨old_body, hbody, new_recipe, hnew, ?_⟩
    cases hc' : Ocall_OneContainer new_recipe.containerName
        (EraseSF (readContainer s old_body) old_recipe.superfeature) with
    | none =>
      simp only [hc', Option.pure_def, Option.some.injEq] at h
      exact Or.inl ⟨Option.map_eq_none_iff.mp hc', h.symm⟩
    | some s₂ =>
      simp only [hc'] at h
      obtain ⟨new_body, hbody', rfl⟩ := Option.map_eq_some_iff.mp hc'
      refine Or.inr ⟨new_body, hbody', ?_⟩
      obtain ⟨⟨t, delta_flag⟩, ht, h⟩ := Option.bind_eq_some_iff.mp h
      exact ⟨t, delta_flag, ht, (Option.some.inj h).symm⟩

/-- What every operation of `Easy_update` on a pair keeps. -/
structure PassClosed (env : EnclaveEnv) (P : Server → Prop) : Prop where
  read : ∀ {t} body, P t → P (readContainer t body)
  size : ∀ {t} n, P t → P { t with offlineCurrBackup_size := n }
  erase : ∀ {t} sf, P t → P (EraseSF t sf)
  replace : ∀ {t} sf fp, P t → P (ReplaceSF t sf fp)
  query : ∀ {t} fp, P t → P (QueryDeltaIndex t fp).2
  store : ∀ {t} chunkHash newBase recipe new_delta fp sf iv, P t →
    P (storeHot env chunkHash newBase recipe new_delta fp sf iv t)

theorem PassClosed.updateDependents {P : Server → Prop} (hP : PassClosed env P)
    {old_chunk new_chunk : Bytes} {newBase : Fp} {deps : List Fp} {flag flag' : Bool} (h : P s)
    (hs : updateDependents env old_chunk new_chunk newBase deps flag s = some (s', flag')) :
    P s' := by
  induction deps generalizing s flag with
  | nil =>
    simp only [Prototype.updateDependents, Option.some.injEq, Prod.mk.injEq] at hs
    rw [← hs.1]
    exact h
  | cons d deps ih =>
    obtain ⟨⟨t, tmp⟩, ht, hrest⟩ := Option.bind_eq_some_iff.mp hs
    obtain ⟨recipe, body, _, _, hcases⟩ := updateDependent_cases ht
    have hread := hP.read body h
    rcases hcases with ⟨_, rfl⟩ | ⟨_, _, n, rfl⟩
    · exact ih hread hrest
    · exact ih (hP.store _ _ _ _ _ _ _ (hP.size n hread)) hrest

theorem PassClosed.Easy_update_pair {P : Server → Prop} (hP : PassClosed env P) {old new : Fp}
    (h : P s) (hs : Easy_update_pair env old new s = some s') : P s' := by
  unfold Prototype.Easy_update_pair at hs
  split at hs
  · unfold greedyPair at hs
    obtain ⟨old_recipe, _, hs⟩ := Option.bind_eq_some_iff.mp hs
    obtain ⟨new_recipe, _, hs⟩ := Option.bind_eq_some_iff.mp hs
    rw [← Option.some.inj hs]
    exact hP.query old (hP.replace _ new (hP.erase _ h))
  · obtain ⟨old_recipe, _, ⟨_, rfl⟩ | ⟨old_body, _, new_recipe, _,
      ⟨_, rfl⟩ | ⟨new_body, _, hpair⟩⟩⟩ := updatePair_cases hs
    · exact h
    · exact hP.erase _ (hP.read old_body h)
    · obtain ⟨t, delta_flag, ht, rfl⟩ := hpair
      have hstart : P (pairStart old old_recipe new_recipe new old_body new_body s) :=
        hP.query old (hP.replace _ new (hP.read new_body (hP.erase _ (hP.read old_body h))))
      have hdone := hP.updateDependents hstart ht
      rcases updateOldBase_cases env old new old_recipe
          (getChunkIV (memcpy s.tmpOcallcontainer 0 old_body) old_recipe)
          (offlineExpand env (getChunkIV (memcpy s.tmpOcallcontainer 0 old_body) old_recipe)
            (getChunkContent (memcpy s.tmpOcallcontainer 0 old_body) old_recipe))
          (offlineExpand env
            (getChunkIV (memcpy (memcpy s.tmpOcallcontainer 0 old_body) 0 new_body) new_recipe)
            (getChunkContent (memcpy (memcpy s.tmpOcallcontainer 0 old_body) 0 new_body)
              new_recipe)) delta_flag t with ⟨n, heq⟩ | ⟨_, _, n, heq⟩
      · rw [heq]
        exact hP.size n hdone
      · rw [heq]
        exact hP.store _ _ _ _ _ _ _ (hP.size n hdone)

end Inversion

section Rebase
variable {env : EnclaveEnv} {s s' : Server} {Lost : Fp → Prop} {old new : Fp}

/-- Between two dependents of a pair: `rest` are still to be worked on, and as long as `flag` holds
nobody else depends on the old base. -/
structure Rebasing (s : Server) (Lost : Fp → Prop) (old new : Fp) (rest : List Fp) (flag : Bool) :
    Prop where
  graph : Graph s.indexObj s.sfObj s.delta_index [] [] fun b => Lost b ∨ b = old
  old_whole : WholeIn s.indexObj old
  new_whole : WholeIn s.indexObj new
  new_kept : ¬Lost new
  ne : new ≠ old
  rest_nodup : rest.Nodup
  rest_on : ∀ d ∈ rest, DeltaOn (Entry s.indexObj []) d old
  rest_all : flag = true → ∀ d, DeltaOn (Entry s.indexObj []) d old → d ∈ rest

theorem deltaOn_unique {idx : FpIndex} {d b b' : Fp} (h : DeltaOn (Entry idx []) d b)
    (h' : DeltaOn (Entry idx []) d b') : b = b' := by
  have hk := (@kinds_delta idx d b ()).mpr h
  rw [(@kinds_delta idx d b' ()).mpr h', Option.some.injEq, View.delta.injEq] at hk
  exact hk.1.symm

theorem deltaOn_not_whole {idx : FpIndex} {d b : Fp} (h : DeltaOn (Entry idx []) d b) :
    ¬WholeIn idx d := by
  intro hw
  have hk := (@kinds_delta idx d b ()).mpr h
  rw [wholeIn_kinds hw] at hk
  simp at hk

theorem wholeIn_insert {idx : FpIndex} {d b : Fp} {e : RecipeEntry} (hne : b ≠ d) :
    WholeIn (idx.insert d e) b ↔ WholeIn idx b := by
  unfold WholeIn
  rw [Table.lookup_insert_ite, if_neg hne]

theorem deltaOn_insert {idx : FpIndex} {d d' b : Fp} {e : RecipeEntry} (hne : d' ≠ d) :
    DeltaOn (Entry (idx.insert d e) []) d' b ↔ DeltaOn (Entry idx []) d' b := by
  unfold DeltaOn Entry
  rw [Table.lookup_insert_ite, if_neg hne]

/-- A dependent moves to the new base. -/
theorem Rebasing.move {d : Fp} {rest : List Fp} {flag : Bool}
    (h : Rebasing s Lost old new (d :: rest) flag) {e : RecipeEntry} (hflag : e.deltaFlag = DELTA)
    (hbase : e.basechunkHash = new) (hidx : s'.indexObj = s.indexObj.insert d e)
    (hsf : s'.sfObj = s.sfObj) (hdi : s'.delta_index = Table.push s.delta_index new d) :
    Rebasing s' Lost old new rest flag := by
  have hon := h.rest_on d (by simp)
  have hd : ∀ {b}, WholeIn s.indexObj b → b ≠ d := by
    rintro b hb rfl
    exact deltaOn_not_whole hon hb
  have hnew : ¬(Lost new ∨ new = old) := fun hl => hl.elim h.new_kept h.ne
  obtain ⟨hnot, hnodup⟩ := List.nodup_cons.mp h.rest_nodup
  have href : Unreferenced (kinds s.indexObj) d :=
    h.graph.depth.unreferenced ((@kinds_delta s.indexObj d old ()).mpr hon)
  have hself : DeltaOn (Entry (s.indexObj.insert d e) []) d new :=
    ⟨e, Or.inl (by rw [Table.lookup_insert_ite, if_pos rfl]), hflag, hbase⟩
  refine ⟨?_, ?_, ?_, h.new_kept, h.ne, hnodup, ?_, ?_⟩
  · rw [hidx, hsf, hdi]
    apply h.graph.hot href _ _ h.new_whole hnew (hd h.new_whole) hflag hbase
    · intro hp
      exact deltaOn_not_whole hon (h.graph.posted_whole hp)
    · intro b hb hb'
      exact hb (Or.inr (deltaOn_unique hb' hon))
  · rw [hidx, wholeIn_insert (hd h.old_whole)]
    exact h.old_whole
  · rw [hidx, wholeIn_insert (hd h.new_whole)]
    exact h.new_whole
  · intro d' hd'
    have hne : d' ≠ d := by
      rintro rfl
      exact hnot hd'
    rw [hidx, deltaOn_insert hne]
    exact h.rest_on d' (List.mem_cons_of_mem d hd')
  · intro hf d' hd'
    rw [hidx] at hd'
    have hne : d' ≠ d := by
      rintro rfl
      exact h.ne (deltaOn_unique hself hd')
    rw [deltaOn_insert hne] at hd'
    exact (List.mem_cons.mp (h.rest_all hf d' hd')).resolve_left hne

/-- A dependent stays with the old base. -/
theorem Rebasing.keep {d : Fp} {rest : List Fp} {flag : Bool}
    (h : Rebasing s Lost old new (d :: rest) flag) (hidx : s'.indexObj = s.indexObj)
    (hsf : s'.sfObj = s.sfObj) (hdi : s'.delta_index = s.delta_index) :
    Rebasing s' Lost old new rest false := by
  refine ⟨?_, ?_, ?_, h.new_kept, h.ne, (List.nodup_cons.mp h.rest_nodup).2, ?_, by simp⟩
  · rw [hidx, hsf, hdi]
    exact h.graph
  · rw [hidx]
    exact h.old_whole
  · rw [hidx]
    exact h.new_whole
  · intro d' hd'
    rw [hidx]
    exact h.rest_on d' (List.mem_cons_of_mem d hd')

/-- The bases other than the old one stay what they are. -/
def KeepsWhole (old : Fp) (s s' : Server) : Prop :=
  ∀ b ≠ old, WholeIn s.indexObj b → WholeIn s'.indexObj b

theorem updateDependent_rebasing {old_chunk new_chunk : Bytes} {d : Fp} {rest : List Fp}
    {flag flag' : Bool} (h : Rebasing s Lost old new (d :: rest) flag)
    (hs : updateDependent env old_chunk new_chunk new d s = some (s', flag')) :
    Rebasing s' Lost old new rest (flag && flag') ∧ PassFrame s s' ∧ KeepsWhole old s s' := by
  obtain ⟨recipe, body, _, _, hcases⟩ := updateDependent_cases hs
  rcases hcases with ⟨rfl, rfl⟩ | ⟨rfl, _, n, rfl⟩
  · rw [Bool.and_false]
    exact ⟨h.keep rfl rfl rfl, ⟨rfl, rfl, rfl, rfl, rfl, rfl, rfl, rfl, Nat.le_refl _⟩,
      fun _ _ hb => hb⟩
  · rw [Bool.and_true]
    obtain ⟨⟨e, hflag, hbase, hidx⟩, hsf, hdi, hframe⟩ := storeHot_indexes env d new recipe
      (EDeltaEncode env.edelta (EDeltaDecode
        (env.DecryptionWithKeyIV (getChunkIV (memcpy s.tmpOcallcontainer 0 body) recipe)
          (getChunkContent (memcpy s.tmpOcallcontainer 0 body) recipe)) old_chunk) new_chunk)
      (getChunkFP (memcpy s.tmpOcallcontainer 0 body) recipe)
      (getChunkSF (memcpy s.tmpOcallcontainer 0 body) recipe)
      (getChunkIV (memcpy s.tmpOcallcontainer 0 body) recipe)
      { readContainer s body with offlineCurrBackup_size := n }
    refine ⟨h.move hflag hbase hidx hsf hdi, ?_, ?_⟩
    · exact ⟨hframe.local_tmp_map, hframe.skipMap, hframe.local_map, hframe.local_basemap,
        hframe.inputMQ, hframe.writer, hframe.inCache, hframe.phase, hframe.times⟩
    · intro b _ hb
      have hne : b ≠ d := by
        rintro rfl
        exact deltaOn_not_whole (h.rest_on b (by simp)) hb
      rw [hidx]
      exact (wholeIn_insert hne).mpr hb

theorem updateDependents_rebasing {old_chunk new_chunk : Bytes} {rest : List Fp}
    {flag flag' : Bool} (h : Rebasing s Lost old new rest flag)
    (hs : updateDependents env old_chunk new_chunk new rest flag s = some (s', flag')) :
    Rebasing s' Lost old new [] flag' ∧ PassFrame s s' ∧ KeepsWhole old s s' := by
  induction rest generalizing s flag with
  | nil =>
    simp only [updateDependents, Option.some.injEq, Prod.mk.injEq] at hs
    obtain ⟨rfl, rfl⟩ := hs
    exact ⟨h, ⟨rfl, rfl, rfl, rfl, rfl, rfl, rfl, rfl, Nat.le_refl _⟩, fun _ _ hb => hb⟩
  | cons d rest ih =>
    unfold updateDependents at hs
    obtain ⟨⟨t, tmp_delta_flag⟩, ht, hs⟩ := Option.bind_eq_some_iff.mp hs
    obtain ⟨hreb, hframe, hkeep⟩ := updateDependent_rebasing h ht
    obtain ⟨hend, hframe', hkeep'⟩ := ih hreb hs
    exact ⟨hend, hframe.trans hframe', fun b hb hw => hkeep' b hb (hkeep b hb hw)⟩

/-- The old base goes last. -/
theorem updateOldBase_graph {flag : Bool} (h : Rebasing s Lost old new [] flag)
    (old_recipe : RecipeEntry) (old_iv : IV) (old_chunk new_chunk : Bytes) :
    let s' := updateOldBase env old new old_recipe old_iv old_chunk new_chunk flag s
    Graph s'.indexObj s'.sfObj s'.delta_index [] [] (fun b => Lost b ∨ b = old) ∧ PassFrame s s' ∧
      KeepsWhole old s s' := by
  intro s'
  rcases updateOldBase_cases env old new old_recipe old_iv old_chunk new_chunk flag s with
    ⟨n, heq⟩ | ⟨hflag, _, n, heq⟩
  · rw [show s' = _ from heq]
    exact ⟨h.graph, ⟨rfl, rfl, rfl, rfl, rfl, rfl, rfl, rfl, Nat.le_refl _⟩, fun _ _ hb => hb⟩
  · obtain ⟨⟨e, hdelta, hbase, hidx⟩, hsf, hdi, hframe⟩ := storeHot_indexes env old new old_recipe
      (EDeltaEncode env.edelta old_chunk new_chunk) old old_recipe.superfeature old_iv
      { s with offlineCurrBackup_size := n }
    rw [← heq] at hidx hsf hdi hframe
    have hnone : ∀ d, ¬DeltaOn (Entry s.indexObj []) d old := by
      intro d hd
      simpa using h.rest_all hflag d hd
    have href : Unreferenced (kinds s.indexObj) old := fun d u hd => hnone d (kinds_delta.mp hd)
    refine ⟨?_, ?_, ?_⟩
    · rw [hidx, hsf, hdi]
      apply h.graph.hot href (h.graph.lost_posted (Or.inr rfl)) _ h.new_whole
        (fun hl => hl.elim h.new_kept h.ne) h.ne hdelta hbase
      intro b _ hb
      exact deltaOn_not_whole hb h.old_whole
    · exact ⟨hframe.local_tmp_map, hframe.skipMap, hframe.local_map, hframe.local_basemap,
        hframe.inputMQ, hframe.writer, hframe.inCache, hframe.phase, hframe.times⟩
    · intro b hb hw
      rw [hidx]
      exact (wholeIn_insert hb).mpr hw

/-- The indexes when the dependents of a pair are about to be worked on. -/
theorem pairStart_rebasing (g : Graph s.indexObj s.sfObj s.delta_index [] [] Lost)
    {old_recipe new_recipe : RecipeEntry} (hold : s.indexObj.lookup old = some old_recipe)
    (hnew : s.indexObj.lookup new = some new_recipe) (hwhole : WholeIn s.indexObj old)
    (hkept : ¬Lost old) (hnwhole : WholeIn s.indexObj new) (hnkept : ¬Lost new) (hne : new ≠ old)
    (old_body new_body : Bytes) :
    Rebasing (pairStart old old_recipe new_recipe new old_body new_body s) Lost old new
      (Table.vec s.delta_index old) true := by
  obtain ⟨e, he, hflag⟩ := hnwhole
  have hrecipe : e = new_recipe := by
    rw [he, Option.some.injEq] at hnew
    exact hnew
  rw [hrecipe] at hflag
  let s₁ := EraseSF (readContainer s old_body) old_recipe.superfeature
  have g₁ : Graph s₁.indexObj s₁.sfObj s.delta_index [] [] Lost :=
    Graph.eraseSF (s := readContainer s old_body) g old_recipe.superfeature
  have hunposted : ¬Posted s₁.sfObj old :=
    Graph.erased (s := readContainer s old_body) g hold
  obtain ⟨g₂, hposted⟩ := Graph.replaceSF (s := readContainer s₁ new_body) g₁ hnew hflag hnkept
  have hstored : s.indexObj.lookup old ≠ none := by
    rw [hold]
    exact Option.some_ne_none _
  have hlisted := g.listed hkept
  have hnodup := g.nodup hkept
  rw [pairsOn_nil, List.append_nil] at hlisted hnodup
  exact ⟨g₂.lose hstored (hposted old hne.symm hunposted), hwhole,
    ⟨new_recipe, hnew, hflag⟩, hnkept, hne, hnodup, fun d hd => (hlisted d).mp hd,
    fun _ d hd => (hlisted d).mpr hd⟩

/-- A whole pair keeps the indexes together; its old base may be lost. -/
theorem Easy_update_pair_graph (g : Graph s.indexObj s.sfObj s.delta_index [] [] Lost)
    (hwhole : WholeIn s.indexObj old) (hkept : ¬Lost old) (hnwhole : WholeIn s.indexObj new)
    (hnkept : ¬Lost new) (hne : new ≠ old) (hs : Easy_update_pair env old new s = some s') :
    ∃ Lost' : Fp → Prop, (∀ b, Lost' b → Lost b ∨ b = old) ∧
      Graph s'.indexObj s'.sfObj s'.delta_index [] [] Lost' ∧ PassFrame s s' ∧
      KeepsWhole old s s' := by
  have hsame : PassFrame s s := ⟨rfl, rfl, rfl, rfl, rfl, rfl, rfl, rfl, Nat.le_refl _⟩
  unfold Easy_update_pair at hs
  split at hs
  · unfold greedyPair at hs
    obtain ⟨old_recipe, hold, hs⟩ := Option.bind_eq_some_iff.mp hs
    obtain ⟨new_recipe, hnew, hs⟩ := Option.bind_eq_some_iff.mp hs
    have hreb := pairStart_rebasing g hold hnew hwhole hkept hnwhole hnkept hne [] []
    rw [← Option.some.inj hs]
    refine ⟨fun b => Lost b ∨ b = old, fun _ => id, hreb.graph, ?_, fun _ _ hb => hb⟩
    exact ⟨rfl, rfl, rfl, rfl, rfl, rfl, rfl, rfl, Nat.le_refl _⟩
  · obtain ⟨old_recipe, hold, hcases⟩ := updatePair_cases hs
    rcases hcases with ⟨_, rfl⟩ | ⟨old_body, _, new_recipe, hnew, hcases⟩
    · exact ⟨Lost, fun _ => Or.inl, g, hsame, fun _ _ hb => hb⟩
    · rcases hcases with ⟨_, rfl⟩ | ⟨new_body, _, t, delta_flag, ht, rfl⟩
      · exact ⟨Lost, fun _ => Or.inl, Graph.eraseSF (s := readContainer s old_body) g _,
          ⟨rfl, rfl, rfl, rfl, rfl, rfl, rfl, rfl, Nat.le_refl _⟩, fun _ _ hb => hb⟩
      · have hreb := pairStart_rebasing g hold hnew hwhole hkept hnwhole hnkept hne old_body
          new_body
        obtain ⟨hend, hframe, hkeep⟩ := updateDependents_rebasing hreb ht
        obtain ⟨hgraph, hframe', hkeep'⟩ := @updateOldBase_graph env t Lost old new
          delta_flag hend old_recipe
          (getChunkIV (memcpy s.tmpOcallcontainer 0 old_body) old_recipe)
          (offlineExpand env (getChunkIV (memcpy s.tmpOcallcontainer 0 old_body) old_recipe)
            (getChunkContent (memcpy s.tmpOcallcontainer 0 old_body) old_recipe))
          (offlineExpand env
            (getChunkIV (memcpy (memcpy s.tmpOcallcontainer 0 old_body) 0 new_body) new_recipe)
            (getChunkContent (memcpy (memcpy s.tmpOcallcontainer 0 old_body) 0 new_body)
              new_recipe))
        have hstart : PassFrame s (pairStart old old_recipe new_recipe new old_body new_body s) :=
          ⟨rfl, rfl, rfl, rfl, rfl, rfl, rfl, rfl, Nat.le_refl _⟩
        exact ⟨_, fun _ => id, hgraph, (hstart.trans hframe).trans hframe',
          fun b hb hw => hkeep' b hb (hkeep b hb hw)⟩

end Rebase

end ShieldReduce.Prototype
