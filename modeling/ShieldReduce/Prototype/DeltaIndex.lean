import ShieldReduce.Lib.DeltaStore
import ShieldReduce.Prototype.System

/-!
# The delta index during an upload

What the FP index, the super-feature index, the delta index and the pending maps have to do with
one another, and the operations of an upload that keep it.
-/

namespace ShieldReduce.Prototype
open Lib Store EDelta

abbrev FpIndex : Type := Table Fp RecipeEntry
abbrev SfIndex : Type := Fin 3 → Table Fp (List Fp)

/-- The abstract store that the FP index describes. -/
def kindOf (e : RecipeEntry) : View Fp Unit Unit :=
  if e.deltaFlag = DELTA then .delta e.basechunkHash () else .whole ()

def kinds (indexObj : FpIndex) (fp : Fp) : Option (View Fp Unit Unit) :=
  (indexObj.lookup fp).map kindOf

/-- `e` is in the index or awaits `Ocall_UpdateOutIndex`. -/
def Entry (indexObj : FpIndex) (done : List QueryEntry) (fp : Fp) (e : RecipeEntry) : Prop :=
  indexObj.lookup fp = some e ∨ ∃ x ∈ done, x.chunkHash = fp ∧ x.chunkAddr = e

def Posted (sfObj : SfIndex) (fp : Fp) : Prop := ∃ i k, fp ∈ Table.vec (sfObj i) k

def DeltaOn (E : Fp → RecipeEntry → Prop) (d b : Fp) : Prop :=
  ∃ e, E d e ∧ e.deltaFlag = DELTA ∧ e.basechunkHash = b

def Whole (E : Fp → RecipeEntry → Prop) (b : Fp) : Prop := ∃ e, E b e ∧ e.deltaFlag = NO_DELTA

/-- The second components of the pairs with first component `b`. -/
def pairsOn (pairs : List (Fp × Fp)) (b : Fp) : List Fp :=
  (pairs.filter fun p => p.1 = b).map Prod.snd

/-- `Lost` are the old bases whose dependents an offline pass has dropped from the delta index;
`pairs` are on their way into it. -/
structure Graph (indexObj : FpIndex) (sfObj : SfIndex) (delta_index : Table Fp (List Fp))
    (done : List QueryEntry) (pairs : List (Fp × Fp)) (Lost : Fp → Prop) : Prop where
  flag : ∀ {fp e}, Entry indexObj done fp e → e.deltaFlag = NO_DELTA ∨ e.deltaFlag = DELTA
  depth : DepthOne (kinds indexObj)
  posted : ∀ {i k fp}, fp ∈ Table.vec (sfObj i) k →
    ∃ e, indexObj.lookup fp = some e ∧ e.deltaFlag = NO_DELTA ∧ sfKey e.superfeature i = k
  lost_stored : ∀ {b}, Lost b → indexObj.lookup b ≠ none
  lost_posted : ∀ {b}, Lost b → ¬Posted sfObj b
  nodup : ∀ {b}, ¬Lost b → (Table.vec delta_index b ++ pairsOn pairs b).Nodup
  listed : ∀ {b}, ¬Lost b → ∀ d, d ∈ Table.vec delta_index b ++ pairsOn pairs b ↔
    DeltaOn (Entry indexObj done) d b

/-- A deferred chunk: stored whole, under no super-feature. -/
structure NewBase (indexObj : FpIndex) (sfObj : SfIndex) (done : List QueryEntry) (Lost : Fp → Prop)
    (n : Fp) : Prop where
  whole : Whole (Entry indexObj done) n
  unposted : ¬Posted sfObj n
  kept : ¬Lost n
  deferred : ∀ x ∈ done, x.chunkHash = n → x.offlineFlag = true

/-- The pending maps: old bases with their new ones. -/
structure Pending (indexObj : FpIndex) (sfObj : SfIndex) (done : List QueryEntry)
    (local_tmp_map : Table Fp Fp) (skipMap : Table Fp (List Fp)) (Lost : Fp → Prop) : Prop where
  old : ∀ {b n}, local_tmp_map.lookup b = some n → Posted sfObj b
  oldSkip : ∀ {b}, skipMap.lookup b ≠ none → Posted sfObj b
  new : ∀ {b n}, local_tmp_map.lookup b = some n → NewBase indexObj sfObj done Lost n
  superseded : ∀ {b n}, n ∈ Table.vec skipMap b → NewBase indexObj sfObj done Lost n
  inj : ∀ {b b' n}, local_tmp_map.lookup b = some n → local_tmp_map.lookup b' = some n → b = b'
  apart : ∀ {b b' n}, local_tmp_map.lookup b = some n → n ∉ Table.vec skipMap b'

/-- The base a query was answered with. -/
structure Based (indexObj : FpIndex) (sfObj : SfIndex) (x : QueryEntry) : Prop where
  posted : Posted sfObj x.basechunkHash
  addr : indexObj.lookup x.basechunkHash = some x.basechunkAddr
  hash : x.chunkAddr.basechunkHash = x.basechunkHash

def basePair (x : QueryEntry) : Fp × Fp := (x.basechunkHash, x.chunkHash)

/-- The entries of a batch in the order they go through: stored, loaded, to do. -/
def batchEntries (b : Batch) (current : List QueryEntry) : List QueryEntry :=
  b.done ++ (current ++ b.todo)

/-- A batch between its queries and `Ocall_UpdateOutIndex`; `current` is the entry between
`OfflinedeltaTure` and the rest of its pass through the chunk loop. -/
structure BatchOk (indexObj : FpIndex) (sfObj : SfIndex) (b : Batch) (current : List QueryEntry) :
    Prop where
  fresh : ∀ x ∈ batchEntries b current, indexObj.lookup x.chunkHash = none
  nodup : ((batchEntries b current).map QueryEntry.chunkHash).Nodup
  size : ∀ x ∈ batchEntries b current, 1 ≤ x.chunk.length ∧ x.chunk.length ≤ MAX_CHUNK_SIZE
  base : ∀ x ∈ batchEntries b current,
    x.deltaFlag ≠ NO_DELTA ∨ x.offlineFlag = true → Based indexObj sfObj x
  todo : ∀ x ∈ b.todo, x.chunkAddr.deltaFlag = NO_DELTA ∧
    (x.deltaFlag = NO_DELTA ∨ x.deltaFlag = OUT_DELTA) ∧ x.offlineFlag = false
  loaded : ∀ x ∈ current, x.chunkAddr.deltaFlag = NO_DELTA ∧
    (x.deltaFlag = NO_DELTA ∨ (x.deltaFlag = DELTA ∧ x.offlineFlag = false))
  done : ∀ x ∈ b.done, x.chunkAddr.deltaFlag = x.deltaFlag ∧
    ((x.deltaFlag = NO_DELTA ∧ x.chunkAddr.superfeature = x.superfeature) ∨
      (x.deltaFlag = DELTA ∧ x.offlineFlag = false))
  deferred : b.Local_Flag = true → ∀ x ∈ b.done ++ current, x.deltaFlag = NO_DELTA
  direct : b.Local_Flag = false → ∀ x ∈ batchEntries b current, x.offlineFlag = false
  pairs : b.process_buffer = (b.done.filter fun x => x.deltaFlag = DELTA).map basePair
  basemap : b.batch_basemap = ((b.done ++ current).filter fun x => x.offlineFlag).map basePair

section Tables
variable {s : Server}

theorem pairsOn_nil (b : Fp) : pairsOn [] b = [] := rfl

theorem pairsOn_append (p q : List (Fp × Fp)) (b : Fp) :
    pairsOn (p ++ q) b = pairsOn p b ++ pairsOn q b := by
  unfold pairsOn
  rw [List.filter_append, List.map_append]

theorem mem_pairsOn {pairs : List (Fp × Fp)} {b d : Fp} : d ∈ pairsOn pairs b ↔ (b, d) ∈ pairs := by
  unfold pairsOn
  rw [List.mem_map]
  constructor
  · rintro ⟨p, hp, rfl⟩
    obtain ⟨hmem, hb⟩ := List.mem_filter.mp hp
    rw [decide_eq_true_eq] at hb
    rw [← hb]
    exact hmem
  · intro h
    exact ⟨(b, d), List.mem_filter.mpr ⟨h, by simp⟩, rfl⟩

/-- `Ocall_UpdateDeltaIndex` appends the pairs, base by base. -/
theorem Ocall_UpdateDeltaIndex_spec (s : Server) (pairs : List (Fp × Fp)) :
    ∃ t, Ocall_UpdateDeltaIndex s pairs = { s with delta_index := t } ∧
      ∀ b, Table.vec t b = Table.vec s.delta_index b ++ pairsOn pairs b := by
  induction pairs generalizing s with
  | nil => exact ⟨s.delta_index, rfl, fun b => by rw [pairsOn_nil, List.append_nil]⟩
  | cons p pairs ih =>
    obtain ⟨t, ht, hvec⟩ := ih (InsertDeltaIndex s p.1 p.2)
    refine ⟨t, ht, fun b => ?_⟩
    rw [hvec]
    change Table.vec (Table.push s.delta_index p.1 p.2) b ++ pairsOn pairs b = _
    have hcons : pairsOn (p :: pairs) b = pairsOn [p] b ++ pairsOn pairs b :=
      pairsOn_append [p] pairs b
    rw [hcons, ← List.append_assoc, Table.vec_push]
    congr 1
    by_cases hb : b = p.1
    · subst hb
      simp [pairsOn]
    · rw [if_neg hb]
      simp [pairsOn, Ne.symm hb]

/-- What `QuerySF` finds is posted. -/
theorem QuerySF_posted {sf : SuperFeature} {fp : Fp} (h : QuerySF s sf = some fp) :
    Posted s.sfObj fp := by
  unfold QuerySF at h
  obtain ⟨fps, hfps, hhead⟩ := Option.bind_eq_some_iff.mp h
  obtain ⟨i, _, hi⟩ := List.exists_of_findSome?_eq_some hfps
  refine ⟨i, sfKey sf i, ?_⟩
  unfold Table.vec
  rw [hi]
  exact List.mem_of_mem_head? hhead

theorem InsertSF_vec (s : Server) (sf : SuperFeature) (fp : Fp) (i : Fin 3) (k : Fp) :
    Table.vec ((InsertSF s sf fp).sfObj i) k =
      if k = sfKey sf i then Table.vec (s.sfObj i) k ++ [fp] else Table.vec (s.sfObj i) k := by
  change Table.vec (Table.push (s.sfObj i) (sfKey sf i) fp) k = _
  rw [Table.vec_push]
  by_cases h : k = sfKey sf i
  · rw [if_pos h, if_pos h, h]
  · rw [if_neg h, if_neg h]

/-- The index after `Ocall_UpdateOutIndex` holds what awaited it. -/
theorem Ocall_UpdateOutIndex_spec (entries : List QueryEntry) (s : Server)
    (hnodup : (entries.map QueryEntry.chunkHash).Nodup)
    (hfresh : ∀ x ∈ entries, s.indexObj.lookup x.chunkHash = none) :
    ∃ idx sf, Ocall_UpdateOutIndex entries s =
        { s with
          indexObj := idx
          sfObj := sf } ∧
      (∀ fp e, idx.lookup fp = some e ↔ Entry s.indexObj entries fp e) ∧
      ∀ i k fp, fp ∈ Table.vec (sf i) k ↔ fp ∈ Table.vec (s.sfObj i) k ∨
        ∃ x ∈ entries, (x.deltaFlag = NO_DELTA ∧ x.offlineFlag = false) ∧ x.chunkHash = fp ∧
          sfKey x.superfeature i = k := by
  induction entries generalizing s with
  | nil =>
    refine ⟨s.indexObj, s.sfObj, rfl, fun fp e => ?_, fun i k fp => ?_⟩
    · simp [Entry]
    · simp
  | cons x entries ih =>
    rw [List.map_cons, List.nodup_cons] at hnodup
    have hx : ∀ y ∈ entries, y.chunkHash ≠ x.chunkHash := by
      intro y hy heq
      exact hnodup.1 (List.mem_map.mpr ⟨y, hy, heq⟩)
    have hidx : (updateOutIndexEntry s x).indexObj = s.indexObj.insert x.chunkHash x.chunkAddr := by
      unfold updateOutIndexEntry
      dsimp only
      split <;> rfl
    have hsf : ∀ i k fp, fp ∈ Table.vec ((updateOutIndexEntry s x).sfObj i) k ↔
        fp ∈ Table.vec (s.sfObj i) k ∨
          ((x.deltaFlag = NO_DELTA ∧ x.offlineFlag = false) ∧ x.chunkHash = fp ∧
            sfKey x.superfeature i = k) := by
      intro i k fp
      unfold updateOutIndexEntry
      dsimp only
      by_cases hpost : x.deltaFlag = NO_DELTA ∧ x.offlineFlag = false
      · rw [if_pos hpost, InsertSF_vec]
        by_cases hk : k = sfKey x.superfeature i
        · rw [if_pos hk, List.mem_append, List.mem_singleton]
          constructor
          · rintro (h | h)
            · exact Or.inl h
            · exact Or.inr ⟨hpost, h.symm, hk.symm⟩
          · rintro (h | ⟨_, h, _⟩)
            · exact Or.inl h
            · exact Or.inr h.symm
        · rw [if_neg hk]
          constructor
          · exact Or.inl
          · rintro (h | ⟨_, _, h⟩)
            · exact h
            · exact absurd h.symm hk
      · rw [if_neg hpost]
        constructor
        · exact Or.inl
        · rintro (h | ⟨h, _⟩)
          · exact h
          · exact absurd h hpost
    have hframe : updateOutIndexEntry s x =
        { s with
          indexObj := (updateOutIndexEntry s x).indexObj
          sfObj := (updateOutIndexEntry s x).sfObj } := by
      unfold updateOutIndexEntry
      dsimp only
      split <;> rfl
    obtain ⟨idx, sf, hs', hlookup, hposted⟩ := ih (updateOutIndexEntry s x) hnodup.2 (by
      intro y hy
      rw [hidx, Table.lookup_insert_ite, if_neg (hx y hy)]
      exact hfresh y (List.mem_cons_of_mem x hy))
    refine ⟨idx, sf, ?_, fun fp e => ?_, fun i k fp => ?_⟩
    · change Ocall_UpdateOutIndex entries (updateOutIndexEntry s x) = _
      rw [hs', hframe]
    · rw [hlookup]
      unfold Entry
      rw [hidx, Table.lookup_insert_ite]
      by_cases hfp : fp = x.chunkHash
      · subst hfp
        rw [if_pos rfl, hfresh x (by simp)]
        constructor
        · rintro (h | ⟨y, hy, h⟩)
          · exact Or.inr ⟨x, by simp, rfl, Option.some.inj h⟩
          · exact absurd h.1 (hx y hy)
        · rintro (h | ⟨y, hy, hfp, he⟩)
          · simp at h
          · rcases List.mem_cons.mp hy with rfl | hy
            · exact Or.inl (by rw [he])
            · exact absurd hfp (hx y hy)
      · rw [if_neg hfp]
        constructor
        · rintro (h | ⟨y, hy, h⟩)
          · exact Or.inl h
          · exact Or.inr ⟨y, List.mem_cons_of_mem x hy, h⟩
        · rintro (h | ⟨y, hy, h⟩)
          · exact Or.inl h
          · rcases List.mem_cons.mp hy with rfl | hy
            · exact absurd h.1.symm hfp
            · exact Or.inr ⟨y, hy, h⟩
    · rw [hposted, hsf]
      constructor
      · rintro ((h | h) | ⟨y, hy, h⟩)
        · exact Or.inl h
        · exact Or.inr ⟨x, by simp, h⟩
        · exact Or.inr ⟨y, List.mem_cons_of_mem x hy, h⟩
      · rintro (h | ⟨y, hy, h⟩)
        · exact Or.inl (Or.inl h)
        · rcases List.mem_cons.mp hy with rfl | hy
          · exact Or.inl (Or.inr h)
          · exact Or.inr ⟨y, hy, h⟩

end Tables

section Graph
variable {indexObj : FpIndex} {sfObj : SfIndex} {delta_index : Table Fp (List Fp)}
  {done : List QueryEntry} {pairs : List (Fp × Fp)} {Lost : Fp → Prop}

theorem kindOf_whole {e : RecipeEntry} (h : e.deltaFlag = NO_DELTA) : kindOf e = .whole () := by
  have hne : NO_DELTA ≠ DELTA := by decide
  unfold kindOf
  rw [h, if_neg hne]

theorem kindOf_delta {e : RecipeEntry} (h : e.deltaFlag = DELTA) :
    kindOf e = .delta e.basechunkHash () := if_pos h

theorem Graph.base_whole (g : Graph indexObj sfObj delta_index done pairs Lost) {fp : Fp}
    {e : RecipeEntry} (he : indexObj.lookup fp = some e) (hflag : e.deltaFlag = DELTA) :
    ∃ eb, indexObj.lookup e.basechunkHash = some eb ∧ eb.deltaFlag = NO_DELTA := by
  obtain ⟨v, hv⟩ := g.depth fp e.basechunkHash () (by unfold kinds; rw [he, Option.map_some, kindOf_delta hflag])
  unfold kinds at hv
  obtain ⟨eb, heb, hkind⟩ := Option.map_eq_some_iff.mp hv
  refine ⟨eb, heb, (g.flag (Or.inl heb)).resolve_right fun hd => ?_⟩
  rw [kindOf_delta hd] at hkind
  simp at hkind

theorem Graph.posted_whole (g : Graph indexObj sfObj delta_index done pairs Lost) {fp : Fp}
    (h : Posted sfObj fp) : ∃ e, indexObj.lookup fp = some e ∧ e.deltaFlag = NO_DELTA := by
  obtain ⟨i, k, hmem⟩ := h
  obtain ⟨e, he, hflag, _⟩ := g.posted hmem
  exact ⟨e, he, hflag⟩

theorem entry_snoc {x : QueryEntry} {fp : Fp} {e : RecipeEntry} :
    Entry indexObj (done ++ [x]) fp e ↔
      Entry indexObj done fp e ∨ (fp = x.chunkHash ∧ e = x.chunkAddr) := by
  unfold Entry
  constructor
  · rintro (h | ⟨y, hy, h⟩)
    · exact Or.inl (Or.inl h)
    · rcases List.mem_append.mp hy with hy | hy
      · exact Or.inl (Or.inr ⟨y, hy, h⟩)
      · rw [List.mem_singleton.mp hy] at h
        exact Or.inr ⟨h.1.symm, h.2.symm⟩
  · rintro ((h | ⟨y, hy, h⟩) | ⟨hfp, he⟩)
    · exact Or.inl h
    · exact Or.inr ⟨y, List.mem_append_left _ hy, h⟩
    · exact Or.inr ⟨x, by simp, hfp.symm, he.symm⟩

/-- A stored chunk; a delta comes with its pair. -/
theorem Graph.store (g : Graph indexObj sfObj delta_index done pairs Lost) {x : QueryEntry}
    (hfresh : ∀ e, ¬Entry indexObj done x.chunkHash e) {pair : Option (Fp × Fp)}
    (hx : (x.chunkAddr.deltaFlag = NO_DELTA ∧ pair = none) ∨
      (x.chunkAddr.deltaFlag = DELTA ∧ pair = some (x.chunkAddr.basechunkHash, x.chunkHash))) :
    Graph indexObj sfObj delta_index (done ++ [x]) (pairs ++ pair.toList) Lost := by
  have hnew : ∀ d b, d ∈ pairsOn pair.toList b ↔
      d = x.chunkHash ∧ x.chunkAddr.deltaFlag = DELTA ∧ x.chunkAddr.basechunkHash = b := by
    intro d b
    have hne : NO_DELTA ≠ DELTA := by decide
    rw [mem_pairsOn]
    rcases hx with ⟨hflag, hpair⟩ | ⟨hflag, hpair⟩
    · simp [hpair, hflag, hne]
    · simp only [hpair, hflag, Option.toList_some, List.mem_singleton, Prod.mk.injEq, true_and]
      constructor
      · rintro ⟨hb, hd⟩
        exact ⟨hd, hb.symm⟩
      · rintro ⟨hd, hb⟩
        exact ⟨hb.symm, hd⟩
  refine ⟨?_, g.depth, g.posted, g.lost_stored, g.lost_posted, ?_, ?_⟩
  · intro fp e he
    rcases entry_snoc.mp he with he | ⟨_, rfl⟩
    · exact g.flag he
    · exact hx.imp And.left And.left
  · intro b hb
    rw [pairsOn_append, ← List.append_assoc, List.nodup_append]
    refine ⟨g.nodup hb, ?_, ?_⟩
    · rcases hx with ⟨_, hpair⟩ | ⟨_, hpair⟩
      · rw [hpair]
        exact List.nodup_nil
      · rw [hpair]
        by_cases hbase : x.chunkAddr.basechunkHash = b
        · simp [pairsOn, hbase]
        · simp [pairsOn, hbase]
    · rintro d hd d' hd' rfl
      obtain ⟨hfp, _⟩ := (hnew d b).mp hd'
      obtain ⟨e, he, _⟩ := (g.listed hb d).mp hd
      rw [hfp] at he
      exact hfresh e he
  · intro b hb d
    rw [pairsOn_append, ← List.append_assoc, List.mem_append, g.listed hb, hnew]
    constructor
    · rintro (⟨e, he, h⟩ | ⟨hd, h⟩)
      · exact ⟨e, entry_snoc.mpr (Or.inl he), h⟩
      · exact ⟨x.chunkAddr, entry_snoc.mpr (Or.inr ⟨hd, rfl⟩), h⟩
    · rintro ⟨e, he, h⟩
      rcases entry_snoc.mp he with he | ⟨hd, rfl⟩
      · exact Or.inl ⟨e, he, h⟩
      · exact Or.inr ⟨hd, h⟩

/-- The pairs reach the delta index. -/
theorem Graph.flush (g : Graph indexObj sfObj delta_index done pairs Lost)
    {t : Table Fp (List Fp)}
    (ht : ∀ b, Table.vec t b = Table.vec delta_index b ++ pairsOn pairs b) :
    Graph indexObj sfObj t done [] Lost := by
  refine ⟨g.flag, g.depth, g.posted, g.lost_stored, g.lost_posted, ?_, ?_⟩
  · intro b hb
    rw [ht, pairsOn_nil, List.append_nil]
    exact g.nodup hb
  · intro b hb d
    rw [ht, pairsOn_nil, List.append_nil]
    exact g.listed hb d

/-- `Ocall_UpdateOutIndex` of a batch whose deltas have posted bases. -/
theorem Graph.register (g : Graph indexObj sfObj delta_index done [] Lost)
    (hfresh : ∀ x ∈ done, indexObj.lookup x.chunkHash = none)
    (hbased : ∀ x ∈ done, x.chunkAddr.deltaFlag = DELTA →
      Posted sfObj x.chunkAddr.basechunkHash)
    (hwhole : ∀ x ∈ done, x.deltaFlag = NO_DELTA → x.chunkAddr.deltaFlag = NO_DELTA ∧
      x.chunkAddr.superfeature = x.superfeature)
    {idx : FpIndex} {sf : SfIndex}
    (hidx : ∀ fp e, idx.lookup fp = some e ↔ Entry indexObj done fp e)
    (hsf : ∀ i k fp, fp ∈ Table.vec (sf i) k ↔ fp ∈ Table.vec (sfObj i) k ∨
      ∃ x ∈ done, (x.deltaFlag = NO_DELTA ∧ x.offlineFlag = false) ∧ x.chunkHash = fp ∧
        sfKey x.superfeature i = k) :
    Graph idx sf delta_index [] [] Lost := by
  have hE : Entry idx [] = Entry indexObj done := by
    funext fp e
    refine propext ?_
    rw [← hidx]
    simp [Entry]
  have hold : ∀ {fp e}, indexObj.lookup fp = some e → idx.lookup fp = some e :=
    fun h => (hidx _ _).mpr (Or.inl h)
  refine ⟨?_, ?_, ?_, ?_, ?_, ?_, ?_⟩
  · rw [hE]
    exact g.flag
  · intro k b u hk
    unfold kinds at hk
    obtain ⟨e, he, hkind⟩ := Option.map_eq_some_iff.mp hk
    have hflag : e.deltaFlag = DELTA := by
      by_contra hne
      unfold kindOf at hkind
      rw [if_neg hne] at hkind
      simp at hkind
    rw [kindOf_delta hflag, View.delta.injEq] at hkind
    obtain ⟨eb, heb, hwb⟩ : ∃ eb, indexObj.lookup e.basechunkHash = some eb ∧
        eb.deltaFlag = NO_DELTA := by
      rcases (hidx k e).mp he with he | ⟨x, hx, _, rfl⟩
      · exact g.base_whole he hflag
      · exact g.posted_whole (hbased x hx hflag)
    refine ⟨(), ?_⟩
    unfold kinds
    rw [← hkind.1, hold heb, Option.map_some, kindOf_whole hwb]
  · intro i k fp hmem
    rcases (hsf i k fp).mp hmem with hmem | ⟨x, hx, ⟨hflag, _⟩, rfl, hk⟩
    · obtain ⟨e, he, h⟩ := g.posted hmem
      exact ⟨e, hold he, h⟩
    · obtain ⟨hw, hsuper⟩ := hwhole x hx hflag
      exact ⟨x.chunkAddr, (hidx _ _).mpr (Or.inr ⟨x, hx, rfl, rfl⟩), hw, by rw [hsuper, hk]⟩
  · intro b hb
    obtain ⟨e, he⟩ := Option.ne_none_iff_exists'.mp (g.lost_stored hb)
    rw [hold he]
    exact Option.some_ne_none e
  · rintro b hb ⟨i, k, hmem⟩
    rcases (hsf i k b).mp hmem with hmem | ⟨x, hx, _, rfl, _⟩
    · exact g.lost_posted hb ⟨i, k, hmem⟩
    · exact g.lost_stored hb (hfresh x hx)
  · exact g.nodup
  · intro b hb d
    rw [hE]
    exact g.listed hb d

end Graph

end ShieldReduce.Prototype
