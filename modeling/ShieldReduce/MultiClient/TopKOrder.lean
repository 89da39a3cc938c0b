import ShieldReduce.MultiClient.TopKRegions

/-!
# The order of the regions

The frequencies of a batch are read in one region and used in two later ones. They are good as long
as no batch that has been sketched later is overtaking.
-/

namespace ShieldReduce.MultiClient
open Lib Store Prototype Prototype.EcallFreqIndex

section Loops
variable {topThreshold : Nat} {ins : Nat → InQueryEntry} {heap : EntryHeap} {written : Fp → Nat}
  {sketchedAt : Nat}

/-- What the heap holds for a key that no query of the batch has been for so far. -/
theorem heapLoop_old (hok : heap.Ok) {key : Fp} {v : RecipeEntry × UInt32} (n : Nat)
    (hitem : (heapLoop topThreshold ins n heap).item key = some v) :
    heap.item key = some v ∨ ∃ j < n, key = (ins j).chunkHash ∧ Stands (ins j) := by
  induction n generalizing v with
  | zero => exact Or.inl hitem
  | succ n ih =>
    have hok' := (@heapLoop_keys topThreshold heap ins hok n).1
    rcases heapStep_item hok' hitem with hold | ⟨hkey, hset, _⟩
    · rcases ih hold with h | ⟨j, hj, h⟩
      · exact Or.inl h
      · exact Or.inr ⟨j, Nat.lt_succ_of_lt hj, h⟩
    · exact Or.inr ⟨n, Nat.lt_succ_self n, hkey, hset⟩

/-- What holds of every item and the region that wrote it. -/
theorem writeLoop_written {Good : Nat → Fp → UInt32 → Prop} (hok : heap.Ok)
    (hold : ∀ key a f, heap.item key = some (a, f) → Good (written key) key f) {n : Nat}
    (hnew : ∀ i < n, Good sketchedAt (ins i).chunkHash (ins i).chunkFreq) :
    (writeLoop topThreshold ins sketchedAt n (heap, written)).1.Ok ∧
      ∀ key a f, (writeLoop topThreshold ins sketchedAt n (heap, written)).1.item key = some (a, f) →
        Good ((writeLoop topThreshold ins sketchedAt n (heap, written)).2 key) key f := by
  apply @forLoop_spec (EntryHeap × (Fp → Nat)) (fun _ st => st.1.Ok ∧
    ∀ key a f, st.1.item key = some (a, f) → Good (st.2 key) key f)
  · exact ⟨hok, hold⟩
  · rintro i ⟨heap', written'⟩ hi ⟨hok', hwritten⟩
    refine ⟨heapStep_ok hok', ?_⟩
    intro key addr f hitem
    unfold writeStep at hitem ⊢
    dsimp only at hitem ⊢ hok' hwritten
    by_cases henters : Enters topThreshold (ins i) heap'
    · rw [if_pos henters]
      obtain ⟨addr', hrefreshed, _⟩ := heapStep_of_enters hok' henters
      by_cases hkey : key = (ins i).chunkHash
      · rw [hkey, hrefreshed.item, Option.some.injEq, Prod.mk.injEq] at hitem
        rw [hkey, Function.update_self, ← hitem.2]
        exact hnew i hi
      · rw [Function.update_of_ne hkey]
        rcases heapStep_item hok' hitem with hsame | ⟨heq, _⟩
        · exact hwritten key addr f hsame
        · exact absurd heq hkey
    · rw [if_neg henters]
      rw [heapStep_of_not_enters henters] at hitem
      exact hwritten key addr f hitem

end Loops

section Timed
variable {env : EnclaveEnv} {topThreshold : Nat} {s s' : SharedFilter} {hist : List Fp}
  {a : RegionAction}

/-- The frequencies of a batch lie between the estimates before and after its sketch region. -/
def Sketched (sketches : Nat → EcallCMSketch) (times : Nat) (client : FilterClient) : Prop :=
  ∃ k < times, client.sketchedAt = k + 1 ∧
    Bounded (sketches k) (sketches (k + 1)) client.inQueryBase client.chunks.length

/-- No two queries stand for the same chunk. -/
def Distinct (client : FilterClient) : Prop :=
  ∀ i < client.chunks.length, ∀ j < client.chunks.length, Stands (client.inQueryBase i) →
    Stands (client.inQueryBase j) →
    (client.inQueryBase i).chunkHash = (client.inQueryBase j).chunkHash → i = j

/-- `sketches k` is the sketch after `k` sketch regions. -/
structure Timed (hist : List Fp) (sketches : Nat → EcallCMSketch) (s : SharedFilter) : Prop where
  heap : s.heap.Ok
  counts : Counts s.sketch hist
  last : sketches s.sketchTimes = s.sketch
  mono : ∀ {k l}, k ≤ l → l ≤ s.sketchTimes → ∀ fp,
    ((sketches k).Estimate fp).toNat ≤ ((sketches l).Estimate fp).toNat
  written : ∀ {key a f}, s.heap.item key = some (a, f) → s.writtenAt key ≤ s.sketchTimes ∧
    f.toNat ≤ ((sketches (s.writtenAt key)).Estimate key).toNat
  client : ∀ c, (s.client c).region ≠ .idle → Sketched sketches s.sketchTimes (s.client c)
  distinct : ∀ c, (s.client c).region = .checked → Distinct (s.client c)

theorem Sketched.grow {sketches : Nat → EcallCMSketch} {times : Nat} {client : FilterClient}
    (h : Sketched sketches times client) (sk : EcallCMSketch) :
    Sketched (Function.update sketches (times + 1) sk) (times + 1) client := by
  obtain ⟨k, hk, hat, hbounded⟩ := h
  refine ⟨k, Nat.lt_succ_of_lt hk, hat, ?_⟩
  rw [Function.update_of_ne (by omega), Function.update_of_ne (by omega)]
  exact hbounded

/-- The stored frequency of a chunk whose item is older than the batch. -/
theorem Timed.stored_le {sketches : Nat → EcallCMSketch} (h : Timed hist sketches s) {k : Nat}
    (hk : k < s.sketchTimes) {key : Fp} {addr : RecipeEntry} {f : UInt32}
    (hitem : s.heap.item key = some (addr, f)) (hold : s.writtenAt key < k + 1) :
    f.toNat ≤ ((sketches k).Estimate key).toNat :=
  (h.written hitem).2.trans (h.mono (Nat.le_of_lt_succ hold) hk.le key)

theorem Timed.updateSketch {sketches : Nat → EcallCMSketch} (h : Timed hist sketches s) (c : Bool)
    (chunks : List Bytes) (hlen : (hist ++ chunks.map env.GenerateHash).length < 2 ^ 32)
    (hs : regionStep env topThreshold s (.updateSketch c chunks) = some s') :
    ∃ sketches', Timed (hist ++ chunks.map env.GenerateHash) sketches' s' := by
  unfold regionStep at hs
  dsimp only at hs
  split at hs
  case isFalse => simp at hs
  rw [← Option.some.inj hs]
  have hn : chunks.length ≤ (chunks.map env.GenerateHash).length := by rw [List.length_map]
  obtain ⟨hcounts, hbounded⟩ := sketchLoop_spec h.counts
    (hashChunks_getElem env chunks (s.client c).inQueryBase) hlen hn
  have hall : (chunks.map env.GenerateHash).take chunks.length = chunks.map env.GenerateHash := by
    rw [← List.length_map env.GenerateHash, List.take_length]
  rw [hall] at hcounts
  generalize sketchLoop chunks.length _ = st at hcounts hbounded
  have hold : ∀ {k}, k ≤ s.sketchTimes →
      Function.update sketches (s.sketchTimes + 1) st.1 k = sketches k :=
    fun hk => Function.update_of_ne (by omega) ..
  refine ⟨Function.update sketches (s.sketchTimes + 1) st.1, ?_⟩
  refine ⟨h.heap, hcounts, Function.update_self .., ?_, ?_, ?_, ?_⟩
  · intro k l hkl hl fp
    dsimp only at hl
    rcases Nat.lt_or_eq_of_le hl with hlt | heq
    · rw [hold (by omega), hold (by omega)]
      exact h.mono hkl (by omega) fp
    · rw [heq, Function.update_self]
      rcases Nat.lt_or_eq_of_le (hkl.trans hl) with hlt | hlast
      · rw [hold (by omega)]
        refine (h.mono (Nat.le_of_lt_succ hlt) (Nat.le_refl _) fp).trans ?_
        rw [h.last]
        exact h.counts.mono hcounts hlen fp
      · rw [hlast, Function.update_self]
  · intro key addr f hitem
    obtain ⟨htimes, hle⟩ := h.written hitem
    dsimp only
    rw [hold htimes]
    exact ⟨Nat.le_succ_of_le htimes, hle⟩
  · intro c' hregion
    dsimp only at hregion ⊢
    by_cases hc : c' = c
    · rw [hc, Function.update_self]
      refine ⟨s.sketchTimes, Nat.lt_succ_self _, rfl, ?_⟩
      rw [hold (Nat.le_refl _), Function.update_self, h.last]
      exact hbounded
    · rw [Function.update_of_ne hc] at hregion ⊢
      exact (h.client c' hregion).grow st.1
  · intro c' hregion
    dsimp only at hregion ⊢
    by_cases hc : c' = c
    · rw [hc, Function.update_self] at hregion
      simp at hregion
    · rw [Function.update_of_ne hc] at hregion ⊢
      exact h.distinct c' hregion

theorem Timed.checkTopK {sketches : Nat → EcallCMSketch} (h : Timed hist sketches s) (c : Bool)
    (hs : regionStep env topThreshold s (.checkTopK c) = some s') : Timed hist sketches s' := by
  unfold regionStep at hs
  dsimp only at hs
  split at hs
  case isFalse => simp at hs
  case isTrue hregion =>
    rw [← Option.some.inj hs]
    have hclient := h.client c (by rw [hregion]; simp)
    obtain ⟨k, hk, hat, hbounded⟩ := hclient
    have hbounded' := @checkLoop_bounded env _ _ s.heap (minFreq topThreshold s.heap) _
      (s.client c).outQueryBase _ hbounded _ (Nat.le_refl _)
    have hchecked := @checkLoop_spec env s.heap (s.client c).inQueryBase
      (minFreq topThreshold s.heap) (s.client c).outQueryBase (s.client c).chunks.length
    unfold SharedFilter.checkAt
    generalize checkLoop env s.heap _ _ _ = st at hbounded' hchecked
    refine ⟨h.heap, h.counts, h.last, h.mono, h.written, ?_, ?_⟩
    · intro c' hregion'
      dsimp only at hregion' ⊢
      by_cases hc : c' = c
      · rw [hc, Function.update_self]
        exact ⟨k, hk, hat, hbounded'⟩
      · rw [Function.update_of_ne hc] at hregion' ⊢
        exact h.client c' hregion'
    · intro c' hregion'
      dsimp only at hregion' ⊢
      by_cases hc : c' = c
      · rw [hc, Function.update_self]
        intro i hi j hj hset hset' heq
        have hfirst := hchecked.first i hi hset
        dsimp only at heq
        rw [hchecked.hash i, hchecked.hash j] at heq
        rw [heq, hchecked.first j hj hset', Option.some.injEq] at hfirst
        exact hfirst.symm
      · rw [Function.update_of_ne hc] at hregion' ⊢
        exact h.distinct c' hregion'

theorem Timed.updateHeap {sketches : Nat → EcallCMSketch} (h : Timed hist sketches s) (c : Bool)
    (chunkAddr : Nat → RecipeEntry)
    (hs : regionStep env topThreshold s (.updateHeap c chunkAddr) = some s') :
    Timed hist sketches s' := by
  unfold regionStep at hs
  dsimp only at hs
  split at hs
  case isFalse => simp at hs
  case isTrue hregion =>
    rw [← Option.some.inj hs]
    obtain ⟨k, hk, hat, hbounded⟩ := h.client c (by rw [hregion]; simp)
    obtain ⟨hok, hwritten⟩ := @writeLoop_written topThreshold ((s.client c).stored chunkAddr)
      s.heap s.writtenAt (s.client c).sketchedAt
      (fun time key f => time ≤ s.sketchTimes ∧ f.toNat ≤ ((sketches time).Estimate key).toNat)
      h.heap (fun key a f hitem => h.written hitem) (s.client c).chunks.length (by
        intro i hi
        rw [hat]
        exact ⟨hk, (hbounded i hi).2⟩)
    refine ⟨hok, h.counts, h.last, h.mono, hwritten _ _ _, ?_, ?_⟩
    · intro c' hregion'
      dsimp only at hregion' ⊢
      by_cases hc : c' = c
      · rw [hc, Function.update_self] at hregion'
        exact absurd rfl hregion'
      · rw [Function.update_of_ne hc] at hregion' ⊢
        exact h.client c' hregion'
    · intro c' hregion'
      dsimp only at hregion' ⊢
      by_cases hc : c' = c
      · rw [hc, Function.update_self] at hregion'
        simp at hregion'
      · rw [Function.update_of_ne hc] at hregion' ⊢
        exact h.distinct c' hregion'

theorem Timed.step {sketches : Nat → EcallCMSketch} (h : Timed hist sketches s)
    (hlen : (hist ++ a.chunks.map env.GenerateHash).length < 2 ^ 32)
    (hs : regionStep env topThreshold s a = some s') :
    ∃ sketches', Timed (hist ++ a.chunks.map env.GenerateHash) sketches' s' := by
  cases a with
  | updateSketch c chunks => exact h.updateSketch c chunks hlen hs
  | checkTopK c =>
    refine ⟨sketches, ?_⟩
    change Timed (hist ++ []) sketches s'
    rw [List.append_nil]
    exact h.checkTopK c hs
  | updateHeap c chunkAddr =>
    refine ⟨sketches, ?_⟩
    change Timed (hist ++ []) sketches s'
    rw [List.append_nil]
    exact h.updateHeap c chunkAddr hs

theorem Timed.checkTopK_sound {sketches : Nat → EcallCMSketch} (h : Timed hist sketches s) {c : Bool}
    (hregion : (s.client c).region = .sketched) (hcurrent : Current s c) :
    RegionSound env topThreshold s (.checkTopK c) := by
  obtain ⟨k, hk, hat, hbounded⟩ := h.client c (by rw [hregion]; simp)
  intro i hi st _ hskip
  have hbounded' := @checkLoop_bounded env _ _ s.heap (minFreq topThreshold s.heap) _
    (s.client c).outQueryBase _ hbounded i hi.le
  have hhash : (st.ins i).chunkHash = ((s.client c).inQueryBase i).chunkHash :=
    (checkLoop_spec _ _ i).hash i
  rw [← Bool.not_eq_true]
  intro hcontains
  obtain ⟨⟨addr, f⟩, hitem⟩ := Option.ne_none_iff_exists'.mp (EntryHeap.contains_iff.mp hcontains)
  rw [hhash] at hcontains hitem
  have hold := hcurrent i hi hcontains
  rw [hat] at hold
  have hstored := h.stored_le hk hitem hold
  have hlow : ((sketches k).Estimate ((s.client c).inQueryBase i).chunkHash).toNat ≤
      (st.ins i).chunkFreq.toNat := by
    rw [← hhash]
    exact (hbounded' i hi).1
  have htop : (minFreq topThreshold s.heap).toNat ≤ f.toNat := by
    unfold minFreq
    split
    · exact UInt32.le_iff_toNat_le.mp (h.heap.top_le hitem)
    · exact Nat.zero_le _
  have hlt := UInt32.lt_iff_toNat_lt.mp hskip
  exact absurd hlt (not_lt.mpr (htop.trans (hstored.trans hlow)))

theorem Timed.updateHeap_sound {sketches : Nat → EcallCMSketch} (h : Timed hist sketches s)
    {c : Bool} {chunkAddr : Nat → RecipeEntry} (hregion : (s.client c).region = .checked)
    (hcurrent : Current s c) : RegionSound env topThreshold s (.updateHeap c chunkAddr) := by
  obtain ⟨k, hk, hat, hbounded⟩ := h.client c (by rw [hregion]; simp)
  have hdistinct := h.distinct c hregion
  let ins := (s.client c).stored chunkAddr
  intro i hi key addr f addr' f' hbefore hafter
  have hok := (@heapLoop_keys topThreshold s.heap ins h.heap i).1
  rcases heapStep_item hok hafter with hsame | ⟨hkey, hset, hfreq⟩
  · rw [hbefore, Option.some.injEq, Prod.mk.injEq] at hsame
    rw [hsame.2]
    exact UInt32.le_refl _
  · rcases heapLoop_old h.heap i hbefore with hitem | ⟨j, hj, hkey', hset'⟩
    · have hcontains : s.heap.Contains ((s.client c).inQueryBase i).chunkHash = true := by
        apply EntryHeap.contains_iff.mpr
        change s.heap.item (ins i).chunkHash ≠ none
        rw [← hkey, hitem]
        exact Option.some_ne_none _
      have hold := hcurrent i hi hcontains
      rw [hat] at hold
      change s.writtenAt (ins i).chunkHash < k + 1 at hold
      rw [← hkey] at hold
      have hstored := h.stored_le hk hitem hold
      have hlow := (hbounded i hi).1
      change ((sketches k).Estimate (ins i).chunkHash).toNat ≤ (ins i).chunkFreq.toNat at hlow
      rw [← hkey, ← hfreq] at hlow
      exact UInt32.le_iff_toNat_le.mpr (hstored.trans hlow)
    · have heq := hdistinct i hi j (hj.trans hi) hset hset' (hkey.symm.trans hkey')
      exact absurd heq hj.ne'

end Timed

section Runs
variable {env : EnclaveEnv} {topThreshold : Nat}

theorem timed_start (inQueryBase : Bool → Nat → InQueryEntry)
    (outQueryBase : Bool → Nat → OutQueryEntry) :
    Timed [] (fun _ => .empty) (SharedFilter.start inQueryBase outQueryBase) := by
  refine ⟨EntryHeap.ok_empty, counts_empty, rfl, fun _ _ _ => Nat.le_refl _, ?_, ?_, ?_⟩
  · intro key a f hitem
    have hnone : EntryHeap.empty.item key = none :=
      EntryHeap.item_eq_none.mpr (AList.lookup_empty key)
    have hempty := hnone.symm.trans hitem
    simp at hempty
  · intro c hregion
    exact absurd rfl hregion
  · intro c hregion
    have hidle : Region.idle = .checked := hregion
    simp at hidle

/-- As long as no batch is overtaken by one that was sketched later, no chunk is skipped that the
heap holds, and no frequency in the heap gets smaller. -/
theorem regions_sound (env : EnclaveEnv) (topThreshold : Nat)
    (inQueryBase : Bool → Nat → InQueryEntry) (outQueryBase : Bool → Nat → OutQueryEntry)
    {acts : List RegionAction} {s : SharedFilter}
    (hrun : runs (regionStep env topThreshold) (SharedFilter.start inQueryBase outQueryBase) acts =
      some s)
    (hlen : (acts.flatMap RegionAction.chunks).length < 2 ^ 32)
    (hmeet : StepsMeet (regionStep env topThreshold) InOrder
      (SharedFilter.start inQueryBase outQueryBase) acts) :
    StepsMeet (regionStep env topThreshold) (RegionSound env topThreshold)
      (SharedFilter.start inQueryBase outQueryBase) acts := by
  have hall : ∀ (acts : List RegionAction) (hist : List Fp) (sketches : Nat → EcallCMSketch)
      (s s' : SharedFilter), Timed hist sketches s →
      runs (regionStep env topThreshold) s acts = some s' →
      (hist ++ (acts.flatMap RegionAction.chunks).map env.GenerateHash).length < 2 ^ 32 →
      StepsMeet (regionStep env topThreshold) InOrder s acts →
      StepsMeet (regionStep env topThreshold) (RegionSound env topThreshold) s acts := by
    intro acts
    induction acts with
    | nil => exact fun _ _ _ _ _ _ _ _ => trivial
    | cons a acts ih =>
      intro hist sketches s s' h hrun hlen hmeet
      obtain ⟨t, ht, hrest⟩ := runs_cons.mp hrun
      rw [List.flatMap_cons, List.map_append, ← List.append_assoc] at hlen
      have hfirst : (hist ++ a.chunks.map env.GenerateHash).length < 2 ^ 32 := by
        rw [List.length_append] at hlen
        omega
      obtain ⟨sketches', h'⟩ := h.step hfirst ht
      refine ⟨?_, ?_⟩
      · cases a with
        | updateSketch c chunks => trivial
        | checkTopK c =>
          apply h.checkTopK_sound _ hmeet.1
          by_contra hregion
          exact absurd ((if_neg hregion).symm.trans ht) (Option.some_ne_none t).symm
        | updateHeap c chunkAddr =>
          apply h.updateHeap_sound _ hmeet.1
          by_contra hregion
          exact absurd ((if_neg hregion).symm.trans ht) (Option.some_ne_none t).symm
      · intro u hu
        rw [ht, Option.some.injEq] at hu
        rw [← hu]
        exact ih _ sketches' t s' h' hrest hlen (hmeet.2 t ht)
  apply hall acts [] _ _ s (timed_start inQueryBase outQueryBase) hrun _ hmeet
  rw [List.nil_append, List.length_map]
  exact hlen

/-- Both clients upload the same chunk, and the second one overtakes the first. -/
def overtaking : List RegionAction :=
  [.updateSketch false [[65]], .updateSketch true [[65]], .checkTopK true,
    .updateHeap true fun _ => emptyEntry, .checkTopK false, .updateHeap false fun _ => emptyEntry]

/-- The chunk of the first client is skipped although a heap of one item holds it, and a larger heap
gets its older frequency back. -/
theorem regions_overtaken :
    (∃ s, runs (regionStep plainEnv 1) (SharedFilter.start (fun _ => zeroIn) fun _ => zeroOut)
        overtaking = some s ∧
      ¬StepsMeet (regionStep plainEnv 1) (RegionSound plainEnv 1)
        (SharedFilter.start (fun _ => zeroIn) fun _ => zeroOut) overtaking) ∧
    ∀ topThreshold ∈ [2, 1024], ∃ s, runs (regionStep plainEnv topThreshold)
        (SharedFilter.start (fun _ => zeroIn) fun _ => zeroOut) overtaking = some s ∧
      ¬StepsMeet (regionStep plainEnv topThreshold) (RegionSound plainEnv topThreshold)
        (SharedFilter.start (fun _ => zeroIn) fun _ => zeroOut) overtaking := by
  have hsome : ∀ topThreshold ∈ [1, 2, 1024], ∃ s, runs (regionStep plainEnv topThreshold)
      (SharedFilter.start (fun _ => zeroIn) fun _ => zeroOut) overtaking = some s := by
    intro topThreshold hmem
    apply Option.isSome_iff_exists.mp
    revert topThreshold
    decide +kernel
  obtain ⟨s₁, hs₁⟩ := hsome 1 List.mem_cons_self
  refine ⟨⟨s₁, hs₁, fun hmeet => ?_⟩, fun topThreshold hmem => ?_⟩
  · have hskip : ((runs (regionStep plainEnv 1)
        (SharedFilter.start (fun _ => zeroIn) fun _ => zeroOut) (overtaking.take 4)).map fun s =>
          (decide (0 < (s.client false).chunks.length),
            ((s.checkAt plainEnv 1 false 0).localIndex.lookup
              ((s.checkAt plainEnv 1 false 0).ins 0).chunkHash).isNone,
            decide (((s.checkAt plainEnv 1 false 0).ins 0).chunkFreq < minFreq 1 s.heap),
            s.heap.Contains ((s.checkAt plainEnv 1 false 0).ins 0).chunkHash)) =
        some (true, true, true, true) := by
      decide +kernel
    obtain ⟨s, hs, heq⟩ := Option.map_eq_some_iff.mp hskip
    simp only [Prod.mk.injEq, decide_eq_true_eq, Option.isNone_iff_eq_none] at heq
    obtain ⟨hlen, hlook, hfreq, hcontains⟩ := heq
    have hsound := StepsMeet.mid hmeet hs 0 hlen hlook hfreq
    rw [hcontains] at hsound
    simp at hsound
  · obtain ⟨s₂, hs₂⟩ := hsome topThreshold (List.mem_cons_of_mem 1 hmem)
    refine ⟨s₂, hs₂, fun hmeet => ?_⟩
    have hlower : ∀ topThreshold ∈ [2, 1024], ((runs (regionStep plainEnv topThreshold)
        (SharedFilter.start (fun _ => zeroIn) fun _ => zeroOut) (overtaking.take 5)).map fun s =>
          (decide (0 < (s.client false).chunks.length),
            (s.heap.item (FixedBytes.read 32 [65] 0)).map Prod.snd,
            ((heapLoop topThreshold ((s.client false).stored fun _ => emptyEntry) 1 s.heap).item
              (FixedBytes.read 32 [65] 0)).map Prod.snd)) = some (true, some 2, some 1) := by
      decide +kernel
    obtain ⟨s, hs, heq⟩ := Option.map_eq_some_iff.mp (hlower topThreshold hmem)
    simp only [Prod.mk.injEq, decide_eq_true_eq] at heq
    obtain ⟨hlen, hbefore, hafter⟩ := heq
    obtain ⟨⟨a, f⟩, hitem, hf⟩ := Option.map_eq_some_iff.mp hbefore
    obtain ⟨⟨a', f'⟩, hitem', hf'⟩ := Option.map_eq_some_iff.mp hafter
    have hsound := StepsMeet.mid hmeet hs 0 hlen _ a f a' f' hitem hitem'
    dsimp only at hf hf'
    rw [hf, hf'] at hsound
    exact absurd hsound (by decide)

/-- The clients upload the same chunk and take turns. -/
theorem regions_sound_turns : ∃ s,
    runs (regionStep plainEnv 1) (SharedFilter.start (fun _ => zeroIn) (fun _ => zeroOut))
      [.updateSketch false [[65]], .checkTopK false, .updateSketch true [[65]],
        .updateHeap false (fun _ => emptyEntry), .checkTopK true,
        .updateHeap true (fun _ => emptyEntry)] = some s ∧
    StepsMeet (regionStep plainEnv 1) (RegionSound plainEnv 1)
      (SharedFilter.start (fun _ => zeroIn) (fun _ => zeroOut))
      [.updateSketch false [[65]], .checkTopK false, .updateSketch true [[65]],
        .updateHeap false (fun _ => emptyEntry), .checkTopK true,
        .updateHeap true (fun _ => emptyEntry)] := by
  have hsome : (runs (regionStep plainEnv 1)
      (SharedFilter.start (fun _ => zeroIn) (fun _ => zeroOut))
      [.updateSketch false [[65]], .checkTopK false, .updateSketch true [[65]],
        .updateHeap false (fun _ => emptyEntry), .checkTopK true,
        .updateHeap true (fun _ => emptyEntry)]).isSome = true := by
    decide +kernel
  obtain ⟨s, hs⟩ := Option.isSome_iff_exists.mp hsome
  exact ⟨s, hs, regions_sound _ _ _ _ hs (by decide) (by decide +kernel)⟩

end Runs

end ShieldReduce.MultiClient
