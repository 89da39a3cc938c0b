import ShieldReduce.Prototype.Compaction
import ShieldReduce.Prototype.InvariantPass

/-!
# Merging small base containers

`MergeContainer` as a whole: `Ocall_GetMergeContainer` chooses neighbours in the order of their
names, and the loop moves the records of the second container of a pair behind those of the first
until `Ocall_GetMergePair` finds no pair left.
-/

namespace ShieldReduce.Prototype
open Lib Store EDelta

section Loop

/-- `MergeContainer` between two OCALLs: the pairs that are left and `jobDoneFlag`. -/
structure Merging where
  server : Server
  baseMergePair : List (ContainerName × ContainerName)
  jobDoneFlag : Bool

def Ocall_GetMergeContainer (m : Merging) : Merging :=
  let pairs := m.baseMergePair ++ baseMergePair (baseContainerList m.server)
  { m with baseMergePair := pairs, jobDoneFlag := pairs.isEmpty }

/-- The body of the `while` loop; `Ocall_GetMergePair` raises the flag when there is no pair. -/
def mergePass (m : Merging) : Option Merging :=
  match m.baseMergePair with
  | [] => some { m with jobDoneFlag := true }
  | p :: rest => do
    let s ← mergePair p m.server
    return { m with server := s, baseMergePair := rest }

/-- `while (jobDoneFlag != 1)` -/
def mergeLoop : Nat → Merging → Option Merging
  | 0, m => some m
  | fuel + 1, m => if m.jobDoneFlag then some m else (mergePass m).bind (mergeLoop fuel)

def Ocall_CleanMerge (m : Merging) : Merging :=
  { m with baseMergePair := [], jobDoneFlag := true }

def MergeContainer (fuel : Nat) (m : Merging) : Option Merging :=
  (mergeLoop fuel (Ocall_GetMergeContainer m)).map Ocall_CleanMerge

end Loop

section Pairs

/-- The pairs are neighbours in the list. -/
theorem baseMergePair_adjacent (l : List (ContainerName × Nat)) :
    ∀ p ∈ baseMergePair l, ∃ before after,
      l.map Prod.fst = before ++ p.1 :: p.2 :: after := by
  induction l using baseMergePair.induct with
  | case1 a b rest hfits ih =>
    unfold baseMergePair
    rw [if_pos hfits]
    intro p hp
    rcases List.mem_cons.mp hp with rfl | hp
    · exact ⟨[], rest.map Prod.fst, rfl⟩
    · obtain ⟨before, after, hl⟩ := ih p hp
      refine ⟨a.1 :: b.1 :: before, after, ?_⟩
      rw [List.map_cons, List.map_cons, hl]
      rfl
  | case2 a b rest hfits ih =>
    unfold baseMergePair
    rw [if_neg hfits]
    intro p hp
    obtain ⟨before, after, hl⟩ := ih p hp
    refine ⟨a.1 :: before, after, ?_⟩
    rw [List.map_cons, hl]
    rfl
  | case3 l hl =>
    intro p hp
    unfold baseMergePair at hp
    split at hp
    · exact absurd rfl (hl _ _ _)
    · simp at hp

theorem baseContainerList_sorted (s : Server) :
    ((baseContainerList s).map Prod.fst).Pairwise fun a b => a.val ≤ b.val := by
  have htotal : Std.Total fun a b : ContainerName × Nat => a.1.val ≤ b.1.val :=
    ⟨fun a b => List.le_total a.1.val b.1.val⟩
  have htrans : IsTrans (ContainerName × Nat) fun a b => a.1.val ≤ b.1.val :=
    ⟨fun _ _ _ => List.le_trans⟩
  rw [List.pairwise_map]
  exact List.pairwise_insertionSort _ _

theorem mem_baseContainerList {s : Server} {p : ContainerName × Nat} :
    p ∈ baseContainerList s ↔ ∃ body, s.files.lookup (false, p.1) = some body ∧
      p.2 = body.length := by
  unfold baseContainerList
  rw [List.mem_insertionSort, List.mem_map]
  constructor
  · rintro ⟨q, hq, rfl⟩
    obtain ⟨hmem, hdir⟩ := List.mem_filter.mp hq
    rw [decide_eq_true_eq] at hdir
    refine ⟨q.2, ?_, rfl⟩
    have hpath : q.1 = (false, q.1.2) := Prod.ext hdir rfl
    rw [← hpath]
    exact AList.mem_lookup_iff.mpr hmem
  · rintro ⟨body, hbody, hsize⟩
    have hmem : (⟨(false, p.1), body⟩ : Sigma fun _ : Path => Bytes) ∈ s.files.entries :=
      AList.mem_lookup_iff.mp hbody
    exact ⟨⟨(false, p.1), body⟩, List.mem_filter.mpr ⟨hmem, by simp⟩, Prod.ext rfl hsize.symm⟩

end Pairs

section Behind

/-- The record once its container stands behind `firstContainerSize` bytes of container `name`. -/
def behind (name : ContainerName) (firstContainerSize : Nat) (r : ChunkRecord) : ChunkRecord :=
  { r with entry := { r.entry with
      offset := r.entry.offset + UInt32.ofNat firstContainerSize, containerName := name } }

theorem repack_eq_behind {source name : ContainerName} {off first : Nat} {rs : List ChunkRecord}
    (h : PackedFrom source off rs) :
    repack name (first + off) rs = rs.map (behind name first) := by
  induction rs generalizing off with
  | nil => rfl
  | cons r rs ih =>
    obtain ⟨_, hoff, _, hrest⟩ := h
    have hr : moved name (first + off) r = behind name first r := by
      have hsum : UInt32.ofNat (first + off) = r.entry.offset + UInt32.ofNat first := by
        rw [← hoff, Nat.add_comm first, UInt32.ofNat_add, UInt32.ofNat_toNat]
      unfold moved behind
      rw [hsum]
    unfold repack
    rw [hr, Nat.add_assoc, ih hrest, List.map_cons]

theorem packedFrom_behind {source name : ContainerName} {first : Nat} {rs : List ChunkRecord}
    (h : PackedFrom source 0 rs) (hsmall : first + (layout rs).length < 2 ^ 32) :
    PackedFrom name first (rs.map (behind name first)) := by
  have hrepack := @repack_eq_behind source name 0 first rs h
  rw [Nat.add_zero] at hrepack
  rw [← hrepack]
  exact packedFrom_repack (fun r hr => (packedFrom_mem h hr).2.2.2) hsmall

theorem layout_behind_length (name : ContainerName) (first : Nat) (rs : List ChunkRecord) :
    (layout (rs.map (behind name first))).length = (layout rs).length := by
  induction rs with
  | nil => rfl
  | cons r rs ih =>
    rw [List.map_cons, layout_cons, layout_cons, List.length_append, List.length_append, ih,
      ChunkRecord.toBytes_length, ChunkRecord.toBytes_length]
    rfl

end Behind

section Merged
variable {s s' : Server} {R R' : ContainerName → Option (List ChunkRecord)}
  {p : ContainerName × ContainerName} {first rs : List ChunkRecord}

/-- What an entry points to. -/
structure SamePlace (e e' : RecipeEntry) : Prop where
  containerName : e.containerName = e'.containerName
  offset : e.offset = e'.offset
  length : e.length = e'.length

/-- `Base-Containers/` holds the containers of `R`, and every record of theirs is the one its
fingerprint's entry points to. The sizes are those that an `int` and a sum of two `uint32_t` take. -/
structure BaseContainers (s : Server) (R : ContainerName → Option (List ChunkRecord)) : Prop where
  file : ∀ name, s.files.lookup (false, name) = (R name).map layout
  packed : ∀ name rs, R name = some rs → PackedFrom name 0 rs
  size : ∀ name rs, R name = some rs → (layout rs).length < 2 ^ 31
  indexed : ∀ name rs, R name = some rs → ∀ r ∈ rs,
    ∃ e, s.indexObj.lookup r.fp = some e ∧ SamePlace e r.entry

theorem BaseContainers.entry_name (h : BaseContainers s R) {name : ContainerName}
    (hR : R name = some rs) {r : ChunkRecord} (hr : r ∈ rs) : r.entry.containerName = name :=
  (packedFrom_mem (h.packed name rs hR) hr).1

theorem BaseContainers.fps_nodup (h : BaseContainers s R) {name : ContainerName}
    (hR : R name = some rs) : (rs.map ChunkRecord.fp).Nodup := by
  refine (packedFrom_nodup (h.packed name rs hR)).map_on ?_
  intro r hr r' hr' hfp
  obtain ⟨e, he, hplace⟩ := h.indexed name rs hR r hr
  obtain ⟨e', he', hplace'⟩ := h.indexed name rs hR r' hr'
  rw [hfp, he', Option.some.injEq] at he
  apply packedFrom_offset_inj (h.packed name rs hR) hr hr'
  rw [← hplace.offset, ← he, hplace'.offset]

/-- A fingerprint is in one container. -/
theorem BaseContainers.fp_apart (h : BaseContainers s R) {name name' : ContainerName}
    {rs' : List ChunkRecord} (hR : R name = some rs) (hR' : R name' = some rs')
    (hne : name ≠ name') {r : ChunkRecord} (hr : r ∈ rs) : r.fp ∉ rs'.map ChunkRecord.fp := by
  intro hmem
  obtain ⟨r', hr', hfp⟩ := List.mem_map.mp hmem
  obtain ⟨e, he, hplace⟩ := h.indexed name rs hR r hr
  obtain ⟨e', he', hplace'⟩ := h.indexed name' rs' hR' r' hr'
  rw [hfp, he, Option.some.injEq] at he'
  apply hne
  rw [← h.entry_name hR hr, ← hplace.containerName, he', hplace'.containerName,
    h.entry_name hR' hr']

/-- The containers after the merge of `rs` behind `first`. -/
def joined (R : ContainerName → Option (List ChunkRecord)) (p : ContainerName × ContainerName)
    (first rs : List ChunkRecord) : ContainerName → Option (List ChunkRecord) :=
  Function.update (Function.update R p.1
    (some (first ++ rs.map (behind p.1 (layout first).length)))) p.2 none

theorem joined_first (hne : p.1 ≠ p.2) :
    joined R p first rs p.1 = some (first ++ rs.map (behind p.1 (layout first).length)) := by
  unfold joined
  rw [Function.update_of_ne hne, Function.update_self]

theorem joined_second : joined R p first rs p.2 = none := by
  unfold joined
  rw [Function.update_self]

theorem joined_of_ne {name : ContainerName} (h₁ : name ≠ p.1) (h₂ : name ≠ p.2) :
    joined R p first rs name = R name := by
  unfold joined
  rw [Function.update_of_ne h₂, Function.update_of_ne h₁]

theorem joined_cases (hne : p.1 ≠ p.2) {name : ContainerName} {rs' : List ChunkRecord}
    (h : joined R p first rs name = some rs') :
    (name = p.1 ∧ rs' = first ++ rs.map (behind p.1 (layout first).length)) ∨
      (name ≠ p.1 ∧ name ≠ p.2 ∧ R name = some rs') := by
  by_cases h₂ : name = p.2
  · rw [h₂, joined_second] at h
    simp at h
  · by_cases h₁ : name = p.1
    · rw [h₁, joined_first hne, Option.some.injEq] at h
      exact Or.inl ⟨h₁, h.symm⟩
    · rw [joined_of_ne h₁ h₂] at h
      exact Or.inr ⟨h₁, h₂, h⟩

theorem joined_size (hfits : (layout first).length + (layout rs).length < MAX_CONTAINER_SIZE)
    (name : ContainerName) :
    (layout (first ++ rs.map (behind name (layout first).length))).length < MAX_CONTAINER_SIZE := by
  rw [layout_append, List.length_append, layout_behind_length]
  exact hfits

/-- One pair: the containers are joined and the index follows the second. -/
theorem mergePair_joined (h : BaseContainers s R) (hfirst : R p.1 = some first)
    (hsecond : R p.2 = some rs) (hne : p.1 ≠ p.2)
    (hfits : (layout first).length + (layout rs).length < MAX_CONTAINER_SIZE) :
    ∃ s', mergePair p s = some s' ∧ BaseContainers s' (joined R p first rs) ∧
      (∀ fp ∉ rs.map ChunkRecord.fp, s'.indexObj.lookup fp = s.indexObj.lookup fp) ∧
      (∀ r ∈ rs, s'.indexObj.lookup r.fp = some (behind p.1 (layout first).length r).entry) ∧
      ∀ name, s'.files.lookup (true, name) = s.files.lookup (true, name) := by
  have hmax : MAX_CONTAINER_SIZE < 2 ^ 31 := by decide
  have hpacked := h.packed p.2 rs hsecond
  have hfile₁ : s.files.lookup (false, p.1) = some (layout first) := by rw [h.file, hfirst]; rfl
  have hfile₂ : s.files.lookup (false, p.2) = some (layout rs) := by rw [h.file, hsecond]; rfl
  have hrun := mergePair_layout hfile₁ hfile₂ hpacked
  have hbehind := @repack_eq_behind p.2 p.1 0 (layout first).length rs hpacked
  rw [Nat.add_zero] at hbehind
  rw [hbehind] at hrun
  have hfps : (rs.map (behind p.1 (layout first).length)).map ChunkRecord.fp =
      rs.map ChunkRecord.fp := by
    rw [List.map_map]
    rfl
  have hsame : ∀ fp ∉ rs.map ChunkRecord.fp,
      (indexRecords s.indexObj (rs.map (behind p.1 (layout first).length))).lookup fp =
        s.indexObj.lookup fp := by
    intro fp hfp
    rw [← hfps] at hfp
    exact lookup_indexRecords_of_not_mem hfp s.indexObj
  have hmoved : ∀ r ∈ rs,
      (indexRecords s.indexObj (rs.map (behind p.1 (layout first).length))).lookup r.fp =
        some (behind p.1 (layout first).length r).entry := by
    intro r hr
    have hnodup := h.fps_nodup hsecond
    rw [← hfps] at hnodup
    exact (lookup_indexRecords hnodup s.indexObj r.fp _).mpr
      (Or.inl ⟨behind p.1 (layout first).length r, List.mem_map_of_mem hr, rfl, rfl⟩)
  refine ⟨_, hrun, ?_, hsame, hmoved, ?_⟩
  · constructor
    · intro name
      dsimp only
      rw [Table.lookup_erase_ite, Table.lookup_insert_ite]
      by_cases h₂ : name = p.2
      · rw [h₂, joined_second, if_pos rfl]
        rfl
      · rw [if_neg fun heq => h₂ (congrArg Prod.snd heq)]
        by_cases h₁ : name = p.1
        · rw [h₁, joined_first hne, if_pos rfl]
          rfl
        · rw [if_neg fun heq => h₁ (congrArg Prod.snd heq), joined_of_ne h₁ h₂, h.file]
    · intro name rs' hrs'
      rcases joined_cases hne hrs' with ⟨rfl, rfl⟩ | ⟨_, _, hR⟩
      · rw [packedFrom_append, Nat.zero_add]
        exact ⟨h.packed p.1 first hfirst, packedFrom_behind hpacked (by omega)⟩
      · exact h.packed name rs' hR
    · intro name rs' hrs'
      rcases joined_cases hne hrs' with ⟨rfl, rfl⟩ | ⟨_, _, hR⟩
      · have hsize := joined_size hfits p.1
        omega
      · exact h.size name rs' hR
    · intro name rs' hrs' r hr
      dsimp only
      rcases joined_cases hne hrs' with ⟨rfl, rfl⟩ | ⟨_, h₂, hR⟩
      · rcases List.mem_append.mp hr with hr | hr
        · rw [hsame r.fp (h.fp_apart hfirst hsecond hne hr)]
          exact h.indexed p.1 first hfirst r hr
        · obtain ⟨r', hr', rfl⟩ := List.mem_map.mp hr
          exact ⟨_, hmoved r' hr', rfl, rfl, rfl⟩
      · rw [hsame r.fp (h.fp_apart hR hsecond h₂ hr)]
        exact h.indexed name rs' hR r hr
  · intro name
    dsimp only
    rw [Table.lookup_erase_ite, Table.lookup_insert_ite, if_neg (by simp), if_neg (by simp)]

/-- What the loop over `pairs` has made of the containers of `R`. -/
structure Merged (s : Server) (R : ContainerName → Option (List ChunkRecord))
    (pairs : List (ContainerName × ContainerName)) (s' : Server)
    (R' : ContainerName → Option (List ChunkRecord)) : Prop where
  containers : BaseContainers s' R'
  pair : ∀ p ∈ pairs, ∃ first rs, R p.1 = some first ∧ R p.2 = some rs ∧
    R' p.1 = some (first ++ rs.map (behind p.1 (layout first).length)) ∧ R' p.2 = none ∧
    (layout (first ++ rs.map (behind p.1 (layout first).length))).length < MAX_CONTAINER_SIZE
  unpaired : ∀ name, (∀ p ∈ pairs, name ≠ p.1 ∧ name ≠ p.2) → R' name = R name
  entries : ∀ fp, (∀ p ∈ pairs, ∀ rs, R p.2 = some rs → fp ∉ rs.map ChunkRecord.fp) →
    s'.indexObj.lookup fp = s.indexObj.lookup fp
  moved : ∀ p ∈ pairs, ∀ first rs, R p.1 = some first → R p.2 = some rs → ∀ r ∈ rs,
    s'.indexObj.lookup r.fp = some (behind p.1 (layout first).length r).entry
  deltas : ∀ name, s'.files.lookup (true, name) = s.files.lookup (true, name)

theorem pair_names {p : ContainerName × ContainerName}
    {rest : List (ContainerName × ContainerName)}
    (hnodup : ((p :: rest).flatMap fun p => [p.1, p.2]).Nodup) :
    p.1 ≠ p.2 ∧ (∀ q ∈ rest, p.1 ≠ q.1 ∧ p.1 ≠ q.2 ∧ p.2 ≠ q.1 ∧ p.2 ≠ q.2) ∧
      (rest.flatMap fun p => [p.1, p.2]).Nodup := by
  rw [List.flatMap_cons, List.nodup_append] at hnodup
  obtain ⟨hp, hrest, hapart⟩ := hnodup
  refine ⟨by simpa using hp, ?_, hrest⟩
  intro q hq
  have h₁ : q.1 ∈ rest.flatMap fun p => [p.1, p.2] := List.mem_flatMap.mpr ⟨q, hq, by simp⟩
  have h₂ : q.2 ∈ rest.flatMap fun p => [p.1, p.2] := List.mem_flatMap.mpr ⟨q, hq, by simp⟩
  exact ⟨hapart p.1 (by simp) q.1 h₁, hapart p.1 (by simp) q.2 h₂, hapart p.2 (by simp) q.1 h₁,
    hapart p.2 (by simp) q.2 h₂⟩

/-- A joined pair and the loop over the rest. -/
theorem Merged.cons {s₁ : Server} {rest : List (ContainerName × ContainerName)}
    (hbase : BaseContainers s R) (hfirst : R p.1 = some first) (hsecond : R p.2 = some rs)
    (hfits : (layout first).length + (layout rs).length < MAX_CONTAINER_SIZE)
    (hnodup : ((p :: rest).flatMap fun p => [p.1, p.2]).Nodup)
    (hentries : ∀ fp ∉ rs.map ChunkRecord.fp, s₁.indexObj.lookup fp = s.indexObj.lookup fp)
    (hmoved : ∀ r ∈ rs, s₁.indexObj.lookup r.fp =
      some (behind p.1 (layout first).length r).entry)
    (hdeltas : ∀ name, s₁.files.lookup (true, name) = s.files.lookup (true, name))
    (h : Merged s₁ (joined R p first rs) rest s' R') : Merged s R (p :: rest) s' R' := by
  obtain ⟨hne, hapart, _⟩ := pair_names hnodup
  have hlater : ∀ q ∈ rest, joined R p first rs q.1 = R q.1 ∧ joined R p first rs q.2 = R q.2 := by
    intro q hq
    obtain ⟨h₁, h₂, h₃, h₄⟩ := hapart q hq
    exact ⟨joined_of_ne h₁.symm h₃.symm, joined_of_ne h₂.symm h₄.symm⟩
  constructor
  · exact h.containers
  · intro q hq
    rcases List.mem_cons.mp hq with rfl | hq
    · refine ⟨first, rs, hfirst, hsecond, ?_, ?_, joined_size hfits q.1⟩
      · rw [h.unpaired q.1 fun q' hq' => ⟨(hapart q' hq').1, (hapart q' hq').2.1⟩,
          joined_first hne]
      · rw [h.unpaired q.2 fun q' hq' => (hapart q' hq').2.2, joined_second]
    · obtain ⟨first', rs', hfirst', hsecond', hrest⟩ := h.pair q hq
      rw [(hlater q hq).1] at hfirst'
      rw [(hlater q hq).2] at hsecond'
      exact ⟨first', rs', hfirst', hsecond', hrest⟩
  · intro name hname
    obtain ⟨h₁, h₂⟩ := hname p List.mem_cons_self
    rw [h.unpaired name fun q hq => hname q (List.mem_cons_of_mem p hq), joined_of_ne h₁ h₂]
  · intro fp hfp
    have hrest : s'.indexObj.lookup fp = s₁.indexObj.lookup fp := by
      refine h.entries fp fun q hq rs' hrs' => ?_
      rw [(hlater q hq).2] at hrs'
      exact hfp q (List.mem_cons_of_mem p hq) rs' hrs'
    rw [hrest, hentries fp (hfp p List.mem_cons_self rs hsecond)]
  · intro q hq first' rs' hfirst' hsecond' r hr
    rcases List.mem_cons.mp hq with rfl | hq
    · rw [hfirst, Option.some.injEq] at hfirst'
      rw [hsecond, Option.some.injEq] at hsecond'
      subst hfirst' hsecond'
      rw [← hmoved r hr]
      refine h.entries r.fp fun q' hq' rs'' hrs'' => ?_
      rw [(hlater q' hq').2] at hrs''
      exact hbase.fp_apart hsecond hrs'' (hapart q' hq').2.2.2 hr
    · rw [← (hlater q hq).1] at hfirst'
      rw [← (hlater q hq).2] at hsecond'
      exact h.moved q hq first' rs' hfirst' hsecond' r hr
  · intro name
    rw [h.deltas name, hdeltas name]

/-- The loop goes through its pairs and ends with the flag. -/
theorem mergeLoop_merged {pairs : List (ContainerName × ContainerName)} {jobDoneFlag : Bool}
    (h : BaseContainers s R) (hnodup : (pairs.flatMap fun p => [p.1, p.2]).Nodup)
    (hpairs : ∀ p ∈ pairs, ∃ first rs, R p.1 = some first ∧ R p.2 = some rs ∧
      (layout first).length + (layout rs).length < MAX_CONTAINER_SIZE)
    (hflag : jobDoneFlag = true → pairs = []) :
    ∃ s' R', Merged s R pairs s' R' ∧ ∀ fuel, pairs.length < fuel →
      mergeLoop fuel ⟨s, pairs, jobDoneFlag⟩ = some ⟨s', [], true⟩ := by
  induction pairs generalizing s R jobDoneFlag with
  | nil =>
    refine ⟨s, R, ⟨h, by simp, fun _ _ => rfl, fun _ _ => rfl, by simp, fun _ => rfl⟩, ?_⟩
    intro fuel hfuel
    obtain ⟨k, rfl⟩ : ∃ k, fuel = k + 1 := ⟨fuel - 1, by omega⟩
    have hdone : mergeLoop k ⟨s, [], true⟩ = some ⟨s, [], true⟩ := by
      cases k with
      | zero => rfl
      | succ k => rfl
    cases jobDoneFlag with
    | true => rfl
    | false => exact hdone
  | cons p rest ih =>
    obtain ⟨first, rs, hfirst, hsecond, hfits⟩ := hpairs p List.mem_cons_self
    obtain ⟨hne, hapart, hrest⟩ := pair_names hnodup
    obtain ⟨s₁, hrun, hjoined, hentries, hmoved, hdeltas⟩ :=
      mergePair_joined h hfirst hsecond hne hfits
    have hpairs' : ∀ q ∈ rest, ∃ first' rs', joined R p first rs q.1 = some first' ∧
        joined R p first rs q.2 = some rs' ∧
        (layout first').length + (layout rs').length < MAX_CONTAINER_SIZE := by
      intro q hq
      obtain ⟨h₁, h₂, h₃, h₄⟩ := hapart q hq
      rw [joined_of_ne h₁.symm h₃.symm, joined_of_ne h₂.symm h₄.symm]
      exact hpairs q (List.mem_cons_of_mem p hq)
    obtain ⟨s', R', hmerged, hloop⟩ := @ih s₁ (joined R p first rs) false hjoined hrest hpairs'
      (by simp)
    refine ⟨s', R', hmerged.cons h hfirst hsecond hfits hnodup hentries hmoved hdeltas, ?_⟩
    intro fuel hfuel
    rw [List.length_cons] at hfuel
    obtain ⟨k, rfl⟩ : ∃ k, fuel = k + 1 := ⟨fuel - 1, by omega⟩
    have hjob : jobDoneFlag = false := by
      cases jobDoneFlag with
      | true => exact absurd (hflag rfl) (List.cons_ne_nil p rest)
      | false => rfl
    have hpass : mergePass ⟨s, p :: rest, false⟩ = some ⟨s₁, rest, false⟩ := by
      unfold mergePass
      simp only [hrun]
      rfl
    rw [hjob]
    unfold mergeLoop
    rw [if_neg (by simp), hpass, Option.bind_some]
    exact hloop k (by omega)

end Merged

section Resolve
variable {s s' : Server} {R R' : ContainerName → Option (List ChunkRecord)}
  {pairs : List (ContainerName × ContainerName)}

/-- The fingerprint, super-features, content and IV that a reader finds for `fp` in
`Base-Containers/`. -/
def fetchBase (s : Server) (fp : Fp) : Option (Fp × SuperFeature × Bytes × IV) := do
  let e ← s.indexObj.lookup fp
  let body ← s.files.lookup (false, e.containerName)
  return (getChunkFP body e, getChunkSF body e, getChunkContent body e, getChunkIV body e)

theorem BaseContainers.fetchBase (h : BaseContainers s R) {name : ContainerName}
    {rs : List ChunkRecord} (hR : R name = some rs) {r : ChunkRecord} (hr : r ∈ rs) :
    fetchBase s r.fp = some (r.fp, r.sf, r.content, r.iv) := by
  have hstand : StandsIn (layout rs) r := by
    apply aligned_standsIn (packedFrom_aligned (h.packed name rs hR)).1 _ hr
    rw [slice_zero_eq_take, List.take_length]
  obtain ⟨e, he, hplace⟩ := h.indexed name rs hR r hr
  have hname : e.containerName = name := hplace.containerName.trans (h.entry_name hR hr)
  unfold Prototype.fetchBase
  rw [he, Option.bind_eq_bind, Option.bind_some, hname, h.file, hR, Option.map_some,
    Option.bind_eq_bind, Option.bind_some, ← hstand.fp_eq, ← hstand.sf_eq, ← hstand.content_eq,
    ← hstand.iv_eq]
  unfold getChunkFP getChunkSF getChunkContent getChunkIV
  rw [hplace.offset, hplace.length]
  rfl

/-- Where a record of the old containers is in the new ones. -/
theorem Merged.find (h : Merged s R pairs s' R') {name : ContainerName} {rs : List ChunkRecord}
    (hR : R name = some rs) {r : ChunkRecord} (hr : r ∈ rs) :
    ∃ name' rs' r', R' name' = some rs' ∧ r' ∈ rs' ∧ r'.fp = r.fp ∧ r'.sf = r.sf ∧
      r'.content = r.content ∧ r'.iv = r.iv := by
  by_cases hpair : ∀ p ∈ pairs, name ≠ p.1 ∧ name ≠ p.2
  · exact ⟨name, rs, r, by rw [h.unpaired name hpair, hR], hr, rfl, rfl, rfl, rfl⟩
  · push Not at hpair
    obtain ⟨p, hp, hname⟩ := hpair
    obtain ⟨first, rs₂, hfirst, hsecond, hjoined, _⟩ := h.pair p hp
    by_cases h₁ : name = p.1
    · rw [h₁, hfirst, Option.some.injEq] at hR
      subst hR
      exact ⟨p.1, _, r, hjoined, List.mem_append_left _ hr, rfl, rfl, rfl, rfl⟩
    · rw [hname h₁, hsecond, Option.some.injEq] at hR
      subst hR
      exact ⟨p.1, _, behind p.1 (layout first).length r, hjoined,
        List.mem_append_right _ (List.mem_map_of_mem hr), rfl, rfl, rfl, rfl⟩

theorem Merged.resolves (h : Merged s R pairs s' R') {name : ContainerName}
    {rs : List ChunkRecord} (hR : R name = some rs) {r : ChunkRecord} (hr : r ∈ rs) :
    fetchBase s' r.fp = some (r.fp, r.sf, r.content, r.iv) := by
  obtain ⟨name', rs', r', hR', hr', hfp, hsf, hcontent, hiv⟩ := h.find hR hr
  rw [← hfp, h.containers.fetchBase hR' hr', hsf, hcontent, hiv]

theorem Merged.moved_offset (h : Merged s R pairs s' R') (hbase : BaseContainers s R)
    {p : ContainerName × ContainerName} (hp : p ∈ pairs) {first rs : List ChunkRecord}
    (hfirst : R p.1 = some first) (hsecond : R p.2 = some rs) {r : ChunkRecord} (hr : r ∈ rs) :
    (behind p.1 (layout first).length r).entry.offset.toNat =
      r.entry.offset.toNat + (layout first).length := by
  have hmax : MAX_CONTAINER_SIZE < 2 ^ 32 := by decide
  obtain ⟨first', rs', hfirst', hsecond', _, _, hsize⟩ := h.pair p hp
  rw [hfirst, Option.some.injEq] at hfirst'
  rw [hsecond, Option.some.injEq] at hsecond'
  subst hfirst' hsecond'
  rw [layout_append, List.length_append, layout_behind_length] at hsize
  have hend := (packedFrom_mem (hbase.packed p.2 rs hsecond) hr).2.2.1
  change (r.entry.offset + UInt32.ofNat (layout first).length).toNat = _
  rw [UInt32.toNat_add, UInt32.toNat_ofNat', Nat.mod_eq_of_lt (by omega),
    Nat.mod_eq_of_lt (by omega)]

/-- Only the records of second containers get another entry. -/
theorem Merged.kept_entry (h : Merged s R pairs s' R') (hbase : BaseContainers s R)
    {name : ContainerName} {rs : List ChunkRecord} (hR : R name = some rs)
    (hname : ∀ p ∈ pairs, name ≠ p.2) {r : ChunkRecord} (hr : r ∈ rs) :
    s'.indexObj.lookup r.fp = s.indexObj.lookup r.fp :=
  h.entries r.fp fun p hp _ hrs => hbase.fp_apart hR hrs (hname p hp) hr

end Resolve

section MergedPairs
variable {s : Server} {R : ContainerName → Option (List ChunkRecord)}

theorem chosen_pairs (h : BaseContainers s R) :
    ((baseMergePair (baseContainerList s)).flatMap fun p => [p.1, p.2]).Nodup ∧
      ∀ p ∈ baseMergePair (baseContainerList s), ∃ first rs, R p.1 = some first ∧
        R p.2 = some rs ∧ (layout first).length + (layout rs).length < MAX_CONTAINER_SIZE := by
  obtain ⟨hsub, hfits⟩ := baseMergePair_spec (baseContainerList s)
  refine ⟨(baseContainerList_spec s).1.sublist hsub, ?_⟩
  intro p hp
  obtain ⟨a, b, ha, hb, hsum⟩ := hfits p hp
  obtain ⟨body₁, hbody₁, hsize₁⟩ := mem_baseContainerList.mp ha
  obtain ⟨body₂, hbody₂, hsize₂⟩ := mem_baseContainerList.mp hb
  rw [h.file, Option.map_eq_some_iff] at hbody₁ hbody₂
  obtain ⟨first, hfirst, rfl⟩ := hbody₁
  obtain ⟨rs, hrs, rfl⟩ := hbody₂
  dsimp only at hsize₁ hsize₂
  exact ⟨first, rs, hfirst, hrs, by omega⟩

theorem baseContainerList_names (h : BaseContainers s R) (name : ContainerName) :
    name ∈ (baseContainerList s).map Prod.fst ↔ ∃ rs, R name = some rs := by
  rw [List.mem_map]
  constructor
  · rintro ⟨p, hp, rfl⟩
    obtain ⟨body, hbody, _⟩ := mem_baseContainerList.mp hp
    rw [h.file, Option.map_eq_some_iff] at hbody
    obtain ⟨rs, hrs, _⟩ := hbody
    exact ⟨rs, hrs⟩
  · rintro ⟨rs, hrs⟩
    refine ⟨(name, (layout rs).length), mem_baseContainerList.mpr ⟨layout rs, ?_, rfl⟩, rfl⟩
    rw [h.file, hrs]
    rfl

theorem MergeContainer_merged (h : BaseContainers s R) (jobDoneFlag : Bool) :
    ∃ s' R', Merged s R (baseMergePair (baseContainerList s)) s' R' ∧
      ∀ fuel, (baseMergePair (baseContainerList s)).length < fuel →
        mergeLoop fuel (Ocall_GetMergeContainer ⟨s, [], jobDoneFlag⟩) = some ⟨s', [], true⟩ ∧
        MergeContainer fuel ⟨s, [], jobDoneFlag⟩ = some ⟨s', [], true⟩ := by
  obtain ⟨hnodup, hpairs⟩ := chosen_pairs h
  obtain ⟨s', R', hmerged, hloop⟩ := mergeLoop_merged h hnodup hpairs List.isEmpty_iff.mp
  refine ⟨s', R', hmerged, ?_⟩
  intro fuel hfuel
  have hrun := hloop fuel hfuel
  refine ⟨hrun, ?_⟩
  unfold MergeContainer Ocall_GetMergeContainer
  dsimp only
  rw [List.nil_append, hrun]
  rfl

/-- Merging, for every set of base containers: the pairs are disjoint neighbours in the sorted
list of the containers, every record is found again, and the loop ends. -/
theorem MergeContainer_keeps (h : BaseContainers s R) (jobDoneFlag : Bool) :
    (∀ name, name ∈ (baseContainerList s).map Prod.fst ↔ ∃ rs, R name = some rs) ∧
    ((baseContainerList s).map Prod.fst).Pairwise (fun a b => a.val ≤ b.val) ∧
    ((baseMergePair (baseContainerList s)).flatMap fun p => [p.1, p.2]).Nodup ∧
    (∀ p ∈ baseMergePair (baseContainerList s), ∃ before after,
      (baseContainerList s).map Prod.fst = before ++ p.1 :: p.2 :: after) ∧
    ∃ s' R',
      (∀ fuel, (baseMergePair (baseContainerList s)).length < fuel →
        mergeLoop fuel (Ocall_GetMergeContainer ⟨s, [], jobDoneFlag⟩) = some ⟨s', [], true⟩ ∧
        MergeContainer fuel ⟨s, [], jobDoneFlag⟩ = some ⟨s', [], true⟩) ∧
      Merged s R (baseMergePair (baseContainerList s)) s' R' ∧
      (∀ name rs r, R name = some rs → r ∈ rs →
        fetchBase s r.fp = some (r.fp, r.sf, r.content, r.iv) ∧
        fetchBase s' r.fp = some (r.fp, r.sf, r.content, r.iv)) ∧
      (∀ name rs r, R name = some rs → r ∈ rs →
        (∀ p ∈ baseMergePair (baseContainerList s), name ≠ p.2) →
        s'.indexObj.lookup r.fp = s.indexObj.lookup r.fp) ∧
      ∀ p ∈ baseMergePair (baseContainerList s), ∀ first rs r, R p.1 = some first →
        R p.2 = some rs → r ∈ rs →
        s'.indexObj.lookup r.fp = some (behind p.1 (layout first).length r).entry ∧
        (behind p.1 (layout first).length r).entry.offset.toNat =
          r.entry.offset.toNat + (layout first).length := by
  obtain ⟨s', R', hmerged, hrun⟩ := MergeContainer_merged h jobDoneFlag
  refine ⟨baseContainerList_names h, baseContainerList_sorted s, (chosen_pairs h).1,
    baseMergePair_adjacent (baseContainerList s), s', R', hrun, hmerged, ?_, ?_, ?_⟩
  · intro name rs r hR hr
    exact ⟨h.fetchBase hR hr, hmerged.resolves hR hr⟩
  · intro name rs r hR hr hname
    exact hmerged.kept_entry h hR hname hr
  · intro p hp first rs r hfirst hsecond hr
    exact ⟨hmerged.moved p hp first rs hfirst hsecond r hr, hmerged.moved_offset h hp hfirst hsecond hr⟩

/-- A container of one record. -/
def oneRecord (x : UInt8) : ChunkRecord := moved (FixedBytes.fill 7 x) 0 (byteRecord x 0)

/-- Two base containers of one record each. -/
def pairServer : Server :=
  { Server.start false true with
    indexObj := indexRecords ∅ [oneRecord 1, oneRecord 2]
    files := ((∅ : Table Path Bytes).insert (false, FixedBytes.fill 7 2)
      (layout [oneRecord 2])).insert (false, FixedBytes.fill 7 1) (layout [oneRecord 1]) }

def pairRecords : ContainerName → Option (List ChunkRecord) :=
  Function.update (Function.update (fun _ => none) (FixedBytes.fill 7 2) (some [oneRecord 2]))
    (FixedBytes.fill 7 1) (some [oneRecord 1])

theorem pairRecords_cases {name : ContainerName} {rs : List ChunkRecord}
    (h : pairRecords name = some rs) :
    ∃ x, (x = 1 ∨ x = 2) ∧ name = FixedBytes.fill 7 x ∧ rs = [oneRecord x] := by
  unfold pairRecords at h
  by_cases h₁ : name = FixedBytes.fill 7 1
  · rw [h₁, Function.update_self, Option.some.injEq] at h
    exact ⟨1, Or.inl rfl, h₁, h.symm⟩
  · rw [Function.update_of_ne h₁] at h
    by_cases h₂ : name = FixedBytes.fill 7 2
    · rw [h₂, Function.update_self, Option.some.injEq] at h
      exact ⟨2, Or.inr rfl, h₂, h.symm⟩
    · rw [Function.update_of_ne h₂] at h
      simp at h

theorem pairServer_containers : BaseContainers pairServer pairRecords := by
  constructor
  · intro name
    unfold pairServer pairRecords
    dsimp only
    rw [Table.lookup_insert_ite, Table.lookup_insert_ite]
    by_cases h₁ : name = FixedBytes.fill 7 1
    · rw [h₁, if_pos rfl, Function.update_self]
      rfl
    · rw [if_neg fun heq => h₁ (congrArg Prod.snd heq), Function.update_of_ne h₁]
      by_cases h₂ : name = FixedBytes.fill 7 2
      · rw [h₂, if_pos rfl, Function.update_self]
        rfl
      · rw [if_neg fun heq => h₂ (congrArg Prod.snd heq), Function.update_of_ne h₂]
        rfl
  · intro name rs h
    obtain ⟨x, _, rfl, rfl⟩ := pairRecords_cases h
    exact ⟨rfl, rfl, rfl, trivial⟩
  · intro name rs h
    obtain ⟨x, _, rfl, rfl⟩ := pairRecords_cases h
    rw [layout_singleton, ChunkRecord.toBytes_length]
    exact (by decide : 289 < 2 ^ 31)
  · intro name rs h r hr
    obtain ⟨x, hx, rfl, rfl⟩ := pairRecords_cases h
    obtain rfl := List.mem_singleton.mp hr
    refine ⟨(oneRecord x).entry, ?_, rfl, rfl, rfl⟩
    rcases hx with rfl | rfl
    · decide
    · decide

theorem pairServer_pairs : baseMergePair (baseContainerList pairServer) =
    [(FixedBytes.fill 7 1, FixedBytes.fill 7 2)] := by
  decide +kernel

theorem MergeContainer_keeps_pair :
    ∃ s', MergeContainer 2 ⟨pairServer, [], false⟩ = some ⟨s', [], true⟩ ∧
      fetchBase s' (oneRecord 2).fp =
        some ((oneRecord 2).fp, (oneRecord 2).sf, [2], (oneRecord 2).iv) := by
  obtain ⟨_, _, _, _, s', _, hrun, _, hfetch, _⟩ := MergeContainer_keeps pairServer_containers false
  refine ⟨s', (hrun 2 ?_).2, ?_⟩
  · rw [pairServer_pairs]
    decide
  · exact (hfetch (FixedBytes.fill 7 2) [oneRecord 2] (oneRecord 2) rfl List.mem_cons_self).2

end MergedPairs

end ShieldReduce.Prototype
