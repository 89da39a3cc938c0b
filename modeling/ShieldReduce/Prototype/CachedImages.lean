import ShieldReduce.Store.Lz4RoundTrip
import ShieldReduce.Prototype.DependentTransfer
import ShieldReduce.Prototype.Lifetimes

/-!
# The images of base containers in the enclave

A batch reads base containers into `InContainercache_` while the writer thread still writes files,
and a pass rewrites the files of containers that stay in the cache.
-/

namespace ShieldReduce.Prototype
open Lib Store EDelta

/-- The record that `e` leads to. -/
def recordBytes (body : Bytes) (e : RecipeEntry) : Bytes :=
  slice body e.offset.toNat (e.length.toNat + RECORD_OVERHEAD)

/-- Every base chunk whose container is in the cache has the same record there as in the file. -/
def CacheCoherent (s : Server) : Prop :=
  ∀ fp e, s.indexObj.lookup fp = some e → e.deltaFlag = NO_DELTA →
    ∀ data, (e.containerName, data) ∈ s.inCache →
      ∃ body, s.files.lookup (false, e.containerName) = some body ∧
        e.offset.toNat + (e.length.toNat + RECORD_OVERHEAD) ≤ body.length ∧
        recordBytes data e = recordBytes body e

/-- What a restore expands the base chunk `fp` to. -/
def restoredBase (env : EnclaveEnv) (s : Server) (fp : Fp) : Option Bytes := do
  let e ← s.indexObj.lookup fp
  let body ← s.files.lookup (pathOf e)
  return RecoverOneChunk env (getChunkIV body e) (getChunkContent body e)

/-- The base that `ProcessDeltachunk` is about to encode against is the base of a restore. -/
def BaseRestored (env : EnclaveEnv) (s : Server) : Prop :=
  ∀ x b, s.phase = .uploading (.loaded x b) → x.deltaFlag = DELTA →
    restoredBase env s x.basechunkHash = some (refChunk env x)

/-- The content of a container that the writer thread has got: of the file it writes, or of a file
that is complete. -/
def completed (s : Server) (p : Path) : Option Bytes :=
  match writingAt s.writer p with
  | some (c, _) => some c.body
  | none => s.files.lookup p

section Conditions

/-- An offset in front of all extents. -/
def LiesBefore (offset : UInt32) (extents : List (UInt32 × UInt32)) : Prop :=
  ∀ extent ∈ extents, offset.toNat < extent.1.toNat

instance (offset : UInt32) (extents : List (UInt32 × UInt32)) :
    Decidable (LiesBefore offset extents) :=
  List.decidableBAll _ _

variable (s : Server)

/-- The writer thread has opened the file and not written all of it. -/
def HalfWritten (p : Path) : Prop := ∃ w ∈ writingAt s.writer p, w.2 < w.1.body.length

instance (p : Path) : Decidable (HalfWritten s p) :=
  inferInstanceAs (Decidable (∃ w ∈ writingAt s.writer p, _))

/-- `OfflinedeltaTure` does not find the container of the base in the cache. -/
def ReadsFile (Local_Flag : Bool) (x : QueryEntry) : Prop :=
  neverDelta x.inHash = false ∧ x.deltaFlag = OUT_DELTA ∧ Local_Flag = false ∧
    x.basechunkAddr.containerName ∉ s.inCache.map Prod.fst

instance (Local_Flag : Bool) (x : QueryEntry) : Decidable (ReadsFile s Local_Flag x) :=
  inferInstanceAs (Decidable (_ ∧ _))

/-- The chunk whose base a step loads, with the `Local_Flag` of its batch. -/
def loadedBy : Action → Option (Bool × QueryEntry)
  | .offlinedeltaTure =>
    match s.phase with
    | .uploading (.chunkLoop ⟨Local_Flag, x :: _, _, _, _⟩) => some (Local_Flag, x)
    | _ => none
  | _ => none

def compactedBy : Action → Option ContainerName
  | .updateCold containerName => some containerName
  | _ => none

def mergedBy : Action → Option (ContainerName × ContainerName)
  | .mergePair =>
    match s.phase with
    | .offline (.merge (p :: _)) => some p
    | _ => none
  | _ => none

/-- No container is read from a file that is only partly written. -/
def ReadsComplete (a : Action) : Prop :=
  ∀ p ∈ loadedBy s a, ReadsFile s p.1 p.2 →
    ¬HalfWritten s (false, p.2.basechunkAddr.containerName)

/-- A compaction moves no record of a cached base container, and a merge brings none into one. -/
def SparesCache (a : Action) : Prop :=
  (∀ containerName ∈ compactedBy a, containerName ∈ s.inCache.map Prod.fst →
    ∀ p ∈ s.indexObj.entries, pathOf p.2 = (false, containerName) →
      LiesBefore p.2.offset (Table.vec s.cold_map containerName)) ∧
  ∀ q ∈ mergedBy s a, q.1 ∈ s.inCache.map Prod.fst →
    ∀ p ∈ s.indexObj.entries, pathOf p.2 ≠ (false, q.2)

instance (a : Action) : Decidable (ReadsComplete s a) :=
  inferInstanceAs (Decidable (∀ p ∈ loadedBy s a, _))

instance (a : Action) : Decidable (SparesCache s a) :=
  inferInstanceAs (Decidable ((∀ containerName ∈ compactedBy a, _) ∧ ∀ q ∈ mergedBy s a, _))

end Conditions

/-- A cached image and the file of its container: nothing but a complete file under the name, and
that is what the image begins with. -/
structure ImageOk (s : Server) (name : ContainerName) (data : Bytes) : Prop where
  drawn : Drawn s.con_times name
  closed : (s.opened false).containerID ≠ name
  queued : ∀ c ∈ s.inputMQ, c.path ≠ (false, name)
  written : ∀ c n, s.writer = some (c, n) → c.path = (false, name) → n = c.body.length
  image : ∀ body, s.files.lookup (false, name) = some body → data.take body.length = body

section Images
variable {env : EnclaveEnv} {s s' : Server} {name : ContainerName} {data : Bytes}

/-- A step that leaves the containers of the upload and the files of the base containers alone. -/
structure BasesKept (s s' : Server) : Prop where
  times : s.con_times ≤ s'.con_times
  opened : (s'.opened false).containerID = (s.opened false).containerID
  inputMQ : s'.inputMQ = s.inputMQ
  writer : s'.writer = s.writer
  files : ∀ name, s'.files.lookup (false, name) = s.files.lookup (false, name)

theorem ImageOk.keep (h : ImageOk s name data) (hkept : BasesKept s s') : ImageOk s' name data := by
  refine ⟨h.drawn.mono hkept.times, ?_, ?_, ?_, ?_⟩
  · rw [hkept.opened]
    exact h.closed
  · rw [hkept.inputMQ]
    exact h.queued
  · rw [hkept.writer]
    exact h.written
  · rw [hkept.files]
    exact h.image

theorem ImageOk.setPhase (h : ImageOk s name data) (phase : Phase) :
    ImageOk { s with phase := phase } name data :=
  h.keep ⟨Nat.le_refl _, rfl, rfl, rfl, fun _ => rfl⟩

theorem ImageOk.writeContainer (h : ImageOk s name data) (htimes : s.con_times < 2 ^ 31) (d : Bool) :
    ImageOk (writeContainer d s) name data := by
  refine ⟨h.drawn.mono (Nat.le_succ _), ?_, ?_, h.written, h.image⟩
  · change (Function.update s.opened d _ false).containerID ≠ name
    by_cases hd : false = d
    · subst hd
      rw [Function.update_self]
      rintro rfl
      exact not_drawn_self htimes h.drawn
    · rw [Function.update_of_ne hd]
      exact h.closed
  · intro c hc hpath
    rcases List.mem_append.mp hc with hc | hc
    · exact h.queued c hc hpath
    · rw [List.mem_singleton.mp hc] at hpath
      obtain ⟨hd, hname⟩ := Prod.mk.inj hpath
      change d = false at hd
      rw [hd] at hname
      exact h.closed hname

/-- Another buffer or body of an open container. -/
theorem basesKept_opened (s : Server) {d : Bool} {c : OpenContainer}
    (hc : c.containerID = (s.opened d).containerID) :
    BasesKept s { s with opened := Function.update s.opened d c } := by
  refine ⟨Nat.le_refl _, ?_, rfl, rfl, fun _ => rfl⟩
  change (Function.update s.opened d c false).containerID = _
  by_cases hd : false = d
  · subst hd
    rw [Function.update_self, hc]
  · rw [Function.update_of_ne hd]

theorem ImageOk.saveChunk (h : ImageOk s name data) {d : Bool} {content : Bytes}
    {chunkAddr : RecipeEntry} {sf : SuperFeature} {fp : Fp}
    (htimes : (saveChunk d content chunkAddr sf fp s).1.con_times < 2 ^ 31) :
    ImageOk (saveChunk d content chunkAddr sf fp s).1 name data := by
  by_cases hfits : recordFits content (s.opened d).buf.length
  · unfold Prototype.saveChunk
    rw [if_pos hfits]
    exact h.keep (basesKept_opened s rfl)
  · unfold Prototype.saveChunk at htimes ⊢
    rw [if_neg hfits] at htimes ⊢
    have hfull := h.keep (@basesKept_opened s d
      ⟨(s.opened d).containerID, [], (s.opened d).buf⟩ rfl)
    have hnew := hfull.writeContainer (Nat.lt_of_succ_lt htimes) d
    exact hnew.keep (basesKept_opened _ rfl)

theorem ImageOk.storeChunk (h : ImageOk s name data) {x : QueryEntry}
    (htimes : (storeChunk env x s).2.2.con_times < 2 ^ 31) :
    ImageOk (storeChunk env x s).2.2 name data := by
  obtain ⟨a, buf, hs'⟩ := storeChunk_server env x s
  obtain ⟨n, heq⟩ := ProcessSheUniqueChunk_eq env a buf x.superfeature x.chunkHash s
  have hkept : BasesKept s { s with
      iv := PickNewIV s.iv
      onlineBackupSize := n } := ⟨Nat.le_refl _, rfl, rfl, rfl, fun _ => rfl⟩
  rw [hs', heq] at htimes ⊢
  exact (h.keep hkept).saveChunk htimes

theorem ImageOk.lastContainer (h : ImageOk s name data) {d : Bool}
    (htimes : (lastContainer d s).con_times < 2 ^ 31) : ImageOk (lastContainer d s) name data := by
  unfold Prototype.lastContainer at htimes ⊢
  split
  case isTrue hbody =>
    rw [if_pos hbody] at htimes
    exact h.writeContainer (Nat.lt_of_succ_lt htimes) d
  case isFalse => exact h

theorem ImageOk.closeSession (h : ImageOk s name data)
    (htimes : (closeSession s).con_times < 2 ^ 31) : ImageOk (closeSession s) name data := by
  have hle : (Prototype.lastContainer false s).con_times ≤ (Prototype.closeSession s).con_times := by
    unfold Prototype.closeSession
    generalize Prototype.lastContainer false s = t
    unfold Prototype.lastContainer
    split
    · exact Nat.le_succ _
    · exact Nat.le_refl _
  exact (h.lastContainer (Nat.lt_of_le_of_lt hle htimes)).lastContainer htimes

theorem ImageOk.startSession (h : ImageOk s name data) (htimes : s.con_times < 2 ^ 31) (iv : IV) :
    ImageOk (startSession iv s) name data := by
  refine ⟨h.drawn.mono (Nat.le_add_right _ 2), ?_, h.queued, h.written, h.image⟩
  rintro rfl
  exact not_drawn_self htimes h.drawn

theorem ImageOk.uploadRecipeEnd (h : ImageOk s name data) : ImageOk (ProcessTailBatch s) name data := by
  refine ⟨h.drawn, ?_, h.queued, h.written, h.image⟩
  change (tailContainer (s.opened false)).containerID ≠ name
  unfold tailContainer
  split
  · exact h.closed
  · exact h.closed

theorem ImageOk.openFile (h : ImageOk s name data) {c : Container} {inputMQ : List Container}
    (hqueue : s.inputMQ = c :: inputMQ) :
    ImageOk { s with
      inputMQ := inputMQ
      writer := some (c, 0)
      files := s.files.insert c.path [] } name data := by
  have hne := h.queued c (by rw [hqueue]; exact List.mem_cons_self)
  refine ⟨h.drawn, h.closed, ?_, ?_, ?_⟩
  · intro c' hc'
    exact h.queued c' (by rw [hqueue]; exact List.mem_cons_of_mem c hc')
  · intro c' n hw hpath
    rw [← (Prod.mk.inj (Option.some.inj hw)).1] at hpath
    exact absurd hpath hne
  · intro body hbody
    change (s.files.insert c.path []).lookup (false, name) = some body at hbody
    rw [Table.lookup_insert_ite, if_neg hne.symm] at hbody
    exact h.image body hbody

/-- The writer thread goes on with a file; one of a cached container it has written already. -/
theorem ImageOk.writeFile (h : ImageOk s name data) {c : Container} {written : Nat}
    (hwriter : s.writer = some (c, written))
    (hfile : s.files.lookup c.path = some (c.body.take written)) (n : Nat) :
    ImageOk { s with
      writer := some (c, min (written + n) c.body.length)
      files := s.files.insert c.path (c.body.take (written + n)) } name data := by
  refine ⟨h.drawn, h.closed, h.queued, ?_, ?_⟩
  · intro c' n' hw hpath
    obtain ⟨hc, hn⟩ := Prod.mk.inj (Option.some.inj hw)
    rw [← hc] at hpath ⊢
    have := h.written c written hwriter hpath
    omega
  · intro body hbody
    change (s.files.insert c.path (c.body.take (written + n))).lookup (false, name) = some body at hbody
    rw [Table.lookup_insert_ite] at hbody
    by_cases hpath : (false, name) = c.path
    · have hall := h.written c written hwriter hpath.symm
      rw [if_pos hpath, Option.some.injEq, hall,
        List.take_of_length_le (Nat.le_add_right _ n)] at hbody
      rw [hall, List.take_length, ← hpath, hbody] at hfile
      exact h.image body hfile
    · rw [if_neg hpath] at hbody
      exact h.image body hbody

end Images

/-- What `OfflinedeltaTure` leaves in the cache: what was there, or the image it hands out as well. -/
structure Fetched (s : Server) (Local_Flag : Bool) (x : QueryEntry) (x' : QueryEntry)
    (inCache : List (ContainerName × Bytes)) : Prop where
  addr : x'.basechunkAddr = x.basechunkAddr
  hash : x'.basechunkHash = x.basechunkHash
  cache : ∀ c ∈ inCache, c ∈ s.inCache ∨ (ReadsFile s Local_Flag x ∧
    c.1 = x.basechunkAddr.containerName ∧ ∃ body,
      s.files.lookup (false, x.basechunkAddr.containerName) = some body ∧
      c.2 = memcpy s.tmpOcallcontainer 0 body)
  loaded : x'.deltaFlag = DELTA →
    (x.basechunkAddr.containerName, x'.containerbuffer) ∈ inCache

section Fetch
variable {env : EnclaveEnv} {s s' : Server} {R : Records} {Lost : Fp → Prop} {name : ContainerName}
  {data : Bytes}

theorem OfflinedeltaTure_fetched (Local_Flag : Bool) {x : QueryEntry} (s : Server)
    (hflag : x.deltaFlag ≠ DELTA) :
    Fetched s Local_Flag x (OfflinedeltaTure Local_Flag x s).1
      (OfflinedeltaTure Local_Flag x s).2.2.inCache := by
  have hne : NO_DELTA ≠ DELTA := by decide
  unfold OfflinedeltaTure
  by_cases hnever : neverDelta x.inHash = true
  · rw [if_pos hnever]
    exact ⟨rfl, rfl, fun c hc => Or.inl hc, fun h => absurd h hne⟩
  rw [if_neg hnever]
  by_cases hout : x.deltaFlag = OUT_DELTA
  · rw [if_pos hout]
    by_cases hlocal : Local_Flag = true
    · rw [if_pos hlocal]
      exact ⟨rfl, rfl, fun c hc => Or.inl hc, fun h => absurd h hne⟩
    rw [if_neg hlocal]
    unfold ReadFromCache
    cases hfind : s.inCache.find? (fun c => c.1 = x.basechunkAddr.containerName) with
    | some c =>
      have hname : c.1 = x.basechunkAddr.containerName := by
        simpa using List.find?_some hfind
      refine ⟨rfl, rfl, fun c' hc' => Or.inl ?_, fun _ => ?_⟩
      · rcases List.mem_cons.mp hc' with rfl | hc'
        · exact List.mem_of_find?_eq_some hfind
        · exact (List.mem_filter.mp hc').1
      · change (_, c.2) ∈ c :: _
        rw [← hname]
        exact List.mem_cons_self
    | none =>
      have hmiss : x.basechunkAddr.containerName ∉ s.inCache.map Prod.fst := by
        intro hmem
        obtain ⟨c, hc, hname⟩ := List.mem_map.mp hmem
        have hnot := List.find?_eq_none.mp hfind c hc
        simp [hname] at hnot
      have hreads : ReadsFile s Local_Flag x :=
        ⟨Bool.not_eq_true _ ▸ hnever, hout, Bool.not_eq_true _ ▸ hlocal, hmiss⟩
      dsimp only
      unfold Ocall_getRefContainer
      cases hfile : s.files.lookup (false, x.basechunkAddr.containerName) with
      | none => exact ⟨rfl, rfl, fun c hc => Or.inl hc, fun h => absurd h hne⟩
      | some body =>
        refine ⟨rfl, rfl, fun c hc => ?_, fun _ => List.mem_cons_self⟩
        rcases List.mem_cons.mp hc with rfl | hc
        · exact Or.inr ⟨hreads, rfl, body, hfile, rfl⟩
        · exact Or.inl (List.mem_of_mem_take hc)
  · rw [if_neg hout]
    exact ⟨rfl, rfl, fun c hc => Or.inl hc, fun h => absurd h hflag⟩

/-- Nothing but a complete file can hold what a cached name stands for. -/
theorem ImageOk.holds (h : Inv env s R Lost) (hi : ImageOk s name data) {rs : List ChunkRecord}
    (hrs : R (false, name) = some rs) :
    s.files.lookup (false, name) = some (layout rs) ∧
      ∀ c n, s.writer = some (c, n) → c.path = (false, name) → c.body = layout rs := by
  have hplace := h.stores.holds.place (false, name)
  have hopen : opensIn s.phase s (false, name) = none := by
    generalize s.phase = phase
    cases phase with
    | uploading _ => exact if_neg hi.closed
    | offline stage =>
      cases stage with
      | update =>
        change hotOpens s (false, name) = none
        unfold hotOpens
        rw [if_neg (by simp)]
      | _ => rfl
    | _ => rfl
  have hqueue : queuedAt s.inputMQ (false, name) = [] := by
    unfold queuedAt
    rw [List.filter_eq_nil_iff]
    intro c hc
    simpa using hi.queued c hc
  rw [hopen, hqueue, hrs] at hplace
  cases hwriter : writingAt s.writer (false, name) with
  | none =>
    rw [hwriter] at hplace
    have hfile : s.files.lookup (false, name) = some (layout rs) := by
      generalize s.files.lookup (false, name) = f at hplace
      cases hplace with
      | written rs => rfl
    refine ⟨hfile, fun c n hw hpath => ?_⟩
    rw [hw, writingAt_some, if_pos hpath] at hwriter
    simp at hwriter
  | some w =>
    obtain ⟨c, n⟩ := w
    rw [hwriter] at hplace
    obtain ⟨_, _, hfile, _, rs', hrs', hbody⟩ := hplace.of_writing
    rw [← Option.some.inj hrs'] at hbody
    have hw : s.writer = some (c, n) ∧ c.path = (false, name) := by
      unfold writingAt at hwriter
      obtain ⟨hw, hpath⟩ := Option.filter_eq_some_iff.mp hwriter
      exact ⟨hw, of_decide_eq_true hpath⟩
    have hall := hi.written c n hw.1 hw.2
    rw [hall, List.take_length, hbody] at hfile
    refine ⟨hfile, fun c' n' hw' _ => ?_⟩
    rw [hw.1, Option.some.injEq, Prod.mk.injEq] at hw'
    rw [← hw'.1]
    exact hbody

/-- An image that is read from a file that is there and complete. -/
theorem ImageOk.read (h : Inv env s R Lost) {stage : UploadStage}
    (hphase : s.phase = .uploading stage) {body : Bytes}
    (hfile : s.files.lookup (false, name) = some body) (hwritten : ¬HalfWritten s (false, name))
    (buf : Bytes) : ImageOk s name (memcpy buf 0 body) := by
  have hplace := h.stores.holds.place (false, name)
  rw [hphase, hfile] at hplace
  refine ⟨?_, ?_, ?_, ?_, ?_⟩
  · have hne := h.denotes (p := (false, name)) (Or.inl (by rw [hfile]; exact Option.some_ne_none _))
    obtain ⟨rs, hrs⟩ := Option.ne_none_iff_exists'.mp hne
    exact h.stores.holds.ok.drawn hrs
  · rintro rfl
    rw [show opensIn (.uploading stage) s (false, (s.opened false).containerID) =
      some (s.opened false).buf from uploadOpens_self s false] at hplace
    have hnone := hplace.of_open.2.2.1
    simp at hnone
  · intro c hc hpath
    cases hqueue : queuedAt s.inputMQ (false, name) with
    | nil =>
      unfold queuedAt at hqueue
      exact List.filter_eq_nil_iff.mp hqueue c hc (decide_eq_true hpath)
    | cons c' cs =>
      rw [hqueue] at hplace
      have hnone := hplace.of_queued.2.2.2.1
      simp at hnone
  · intro c n hw hpath
    rw [hw, writingAt_some, if_pos hpath] at hplace
    have hle := hplace.of_writing.2.2.2.1
    by_contra hne
    apply hwritten
    unfold HalfWritten
    rw [hw, writingAt_some, if_pos hpath]
    exact ⟨(c, n), rfl, by dsimp only; omega⟩
  · intro body' hbody'
    rw [hfile, Option.some.injEq] at hbody'
    rw [← hbody', memcpy_zero, List.take_left]

end Fetch

section Rewrite
variable {env : EnclaveEnv} {s s' : Server} {R : Records} {Lost : Fp → Prop} {name : ContainerName}
  {data : Bytes}

/-- Records that stand where they are packed do not move. -/
theorem repack_packed {off : Nat} {rs : List ChunkRecord} (h : PackedFrom name off rs) :
    repack name off rs = rs := by
  induction rs generalizing off with
  | nil => rfl
  | cons r rs ih =>
    obtain ⟨hname, hoff, _, hrest⟩ := h
    have hmoved : moved name off r = r := by
      unfold moved
      rw [← hname, ← hoff, UInt32.ofNat_toNat]
    unfold repack
    rw [hmoved, ih hrest]

/-- The records that are kept are the first ones when none stands behind one that is not. -/
theorem kept_prefix {off : Nat} {rs kept : List ChunkRecord} (hpacked : PackedFrom name off rs)
    (hsub : kept.Sublist rs) (hbefore : ∀ r ∈ kept, ∀ r' ∈ rs, r' ∉ kept →
      r.entry.offset.toNat < r'.entry.offset.toNat) : kept <+: rs := by
  induction rs generalizing off kept with
  | nil =>
    obtain rfl := List.sublist_nil.mp hsub
    exact List.prefix_refl []
  | cons r rs ih =>
    have hnodup := packedFrom_nodup hpacked
    obtain ⟨_, hoff, _, hrest⟩ := hpacked
    have hnot := (List.nodup_cons.mp hnodup).1
    cases hsub with
    | cons _ hsub =>
      -- the first record is not kept, and every kept one stands behind it
      have hnil : kept = [] := by
        rw [List.eq_nil_iff_forall_not_mem]
        intro k hk
        have hlt := hbefore k hk r List.mem_cons_self fun hr => hnot (hsub.subset hr)
        have hle := (packedFrom_mem hrest (hsub.subset hk)).2.1
        omega
      rw [hnil]
      exact List.nil_prefix
    | cons_cons _ hsub =>
      rename_i kept'
      refine List.cons_prefix_cons.mpr ⟨rfl, ih hrest hsub ?_⟩
      intro k hk r' hr' hnk
      refine hbefore k (List.mem_cons_of_mem r hk) r' (List.mem_cons_of_mem r hr') ?_
      intro hmem
      rcases List.mem_cons.mp hmem with rfl | hmem
      · exact hnot hr'
      · exact hnk hmem

/-- Compaction of a container none of whose live records moves: the image still begins with the
file. -/
theorem ImageOk.updateCold (h : Inv env s R Lost) (hi : ImageOk s name data)
    {names : List ContainerName} {containerName : ContainerName}
    (hphase : s.phase = .offline (.cold names))
    (hspares : containerName = name → ∀ p ∈ s.indexObj.entries, pathOf p.2 = (false, name) →
      ∀ extent ∈ Table.vec s.cold_map name, p.2.offset.toNat < extent.1.toNat)
    (ht : Update_cold_container containerName s = some s') : ImageOk s' name data := by
  obtain ⟨_, hstores, hstage⟩ := h.at hphase
  cases hstage with
  | cold pass _ _ =>
    have hholds := hstores.holds
    rw [pass.writer] at hholds
    obtain ⟨d, rs, kept, hfile, hreloc, _, rfl⟩ := Update_cold_container_eq hholds hstores.indexed ht
    refine ⟨hi.drawn, hi.closed, hi.queued, hi.written, ?_⟩
    intro body hbody
    change (s.files.insert (d, containerName) (layout (repack containerName 0 kept))).lookup
      (false, name) = some body at hbody
    rw [Table.lookup_insert_ite] at hbody
    by_cases hpath : (false, name) = (d, containerName)
    · obtain ⟨rfl, rfl⟩ := Prod.mk.inj hpath
      obtain ⟨rs', hrs', hsub, hlive⟩ := hreloc.source
      obtain ⟨rs'', hrs'', hlayout, _⟩ := hholds.file hfile
      have himage := hi.image _ hfile
      rw [hrs', Option.some.injEq] at hrs''
      rw [hlayout, ← hrs''] at himage
      have hpacked := (hholds.ok.packed hrs').packed
      have hprefix := kept_prefix hpacked hsub (by
        intro r hr r' hr' hnot
        have hentry := (entry_lookup s.indexObj _ _).mp (hreloc.kept_live hr)
        have hdead := hstores.indexed.live hrs' hr' fun he => hnot ((hlive r' hr').mpr he)
        exact hspares rfl ⟨r.fp, r.entry⟩ (AList.mem_lookup_iff.mp hentry)
          (hreloc.kept_path hholds.ok hr) _ hdead)
      obtain ⟨dead, hdead⟩ := hprefix
      rw [← hdead] at hpacked himage
      have hkept := repack_packed (packedFrom_append.mp hpacked).1
      rw [if_pos rfl, hkept, Option.some.injEq] at hbody
      rw [layout_append, List.length_append] at himage
      rw [← hbody]
      have htake := congrArg (List.take (layout kept).length) himage
      rw [List.take_take, List.take_left, Nat.min_eq_left (Nat.le_add_right _ _)] at htake
      exact htake
    · rw [if_neg hpath] at hbody
      exact hi.image body hbody

/-- A merge that brings no record into the container. -/
theorem ImageOk.mergePair (h : Inv env s R Lost) (hi : ImageOk s name data)
    {p : ContainerName × ContainerName} {rest : List (ContainerName × ContainerName)}
    (hphase : s.phase = .offline (.merge (p :: rest)))
    (hspares : p.1 = name → ∀ q ∈ s.indexObj.entries, pathOf q.2 ≠ (false, p.2))
    (ht : mergePair p s = some s') : ImageOk s' name data := by
  obtain ⟨_, hstores, hstage⟩ := h.at hphase
  cases hstage with
  | merge pass _ cold merge =>
    have hholds := hstores.holds
    rw [pass.writer] at hholds
    have hne : p.1 ≠ p.2 := by
      have hdistinct := merge.distinct
      rw [List.flatMap_cons] at hdistinct
      intro heq
      simp [heq] at hdistinct
    obtain ⟨first, rs, hfirst, _, hreloc, rfl⟩ := mergePair_eq hholds hstores.indexed cold hne ht
    refine ⟨hi.drawn, hi.closed, hi.queued, hi.written, ?_⟩
    intro body hbody
    change ((s.files.insert (false, p.1)
      (layout (first ++ repack p.1 (layout first).length rs))).erase (false, p.2)).lookup
        (false, name) = some body at hbody
    rw [Table.lookup_erase_ite, Table.lookup_insert_ite] at hbody
    by_cases hsecond : (false, name) = ((false, p.2) : Path)
    · rw [if_pos hsecond] at hbody
      simp at hbody
    rw [if_neg hsecond] at hbody
    by_cases hpath : (false, name) = ((false, p.1) : Path)
    · have hname : p.1 = name := (congrArg Prod.snd hpath).symm
      have hnil : rs = [] := by
        rw [List.eq_nil_iff_forall_not_mem]
        intro r hr
        have hentry := (entry_lookup s.indexObj _ _).mp (hreloc.kept_live hr)
        exact hspares hname ⟨r.fp, r.entry⟩ (AList.mem_lookup_iff.mp hentry)
          (hreloc.kept_path hholds.ok hr)
      rw [if_pos hpath, hnil, repack, List.append_nil, ← hfirst, hname] at hbody
      exact hi.image body hbody
    · rw [if_neg hpath] at hbody
      exact hi.image body hbody

end Rewrite

/-- The entries that lead to a base container have its file. -/
def Filed (s : Server) (name : ContainerName) : Prop :=
  ∀ fp e, Entry s.indexObj (inflight s.phase).1 fp e → pathOf e = (false, name) →
    s.files.lookup (false, name) ≠ none

/-- What a pair leaves of the cache, the base containers and their entries. -/
structure PairKept (s s' : Server) : Prop extends BasesKept s s' where
  inCache : s'.inCache = s.inCache
  phase : s'.phase = s.phase
  entries : ∀ {fp e}, s'.indexObj.lookup fp = some e → e.deltaFlag ≠ DELTA →
    s.indexObj.lookup fp = some e

section Steps
variable {env : EnclaveEnv} {s s' : Server} {R : Records} {Lost : Fp → Prop} {name : ContainerName}
  {data : Bytes} {a : Action}

theorem passClosed_pairKept (env : EnclaveEnv) (s : Server) : PassClosed env (PairKept s) where
  read _ h := ⟨⟨h.times, h.opened, h.inputMQ, h.writer, h.files⟩, h.inCache, h.phase, h.entries⟩
  size _ h := ⟨⟨h.times, h.opened, h.inputMQ, h.writer, h.files⟩, h.inCache, h.phase, h.entries⟩
  erase _ h := ⟨⟨h.times, h.opened, h.inputMQ, h.writer, h.files⟩, h.inCache, h.phase, h.entries⟩
  replace _ _ h := ⟨⟨h.times, h.opened, h.inputMQ, h.writer, h.files⟩, h.inCache, h.phase, h.entries⟩
  query _ h := ⟨⟨h.times, h.opened, h.inputMQ, h.writer, h.files⟩, h.inCache, h.phase, h.entries⟩
  store := by
    intro t chunkHash newBase recipe new_delta fp sf iv h
    obtain ⟨⟨e, hflag, _, hindex⟩, _, _, hframe⟩ :=
      storeHot_indexes env chunkHash newBase recipe new_delta fp sf iv t
    have hopened : (storeHot env chunkHash newBase recipe new_delta fp sf iv t).opened = t.opened :=
      ((passClosed_upload env t).store _ _ _ _ _ _ _ ⟨rfl, rfl, Nat.le_refl _⟩).2.1
    refine ⟨⟨Nat.le_trans h.times hframe.times, ?_, hframe.inputMQ.trans h.inputMQ,
      hframe.writer.trans h.writer, fun name => ?_⟩, hframe.inCache.trans h.inCache,
      hframe.phase.trans h.phase, ?_⟩
    · rw [hopened]
      exact h.opened
    · exact (storeHot_files env chunkHash newBase recipe new_delta fp sf iv t name).trans
        (h.files name)
    · intro fp' e' he' hne
      rw [hindex, Table.lookup_insert_ite] at he'
      split at he'
      · rw [← Option.some.inj he'] at hne
        exact absurd hflag hne
      · exact h.entries he' hne

theorem Easy_update_pair_kept {old new : Fp} (h : Easy_update_pair env old new s = some s') :
    PairKept s s' :=
  (passClosed_pairKept env s).Easy_update_pair
    ⟨⟨Nat.le_refl _, rfl, rfl, rfl, fun _ => rfl⟩, rfl, rfl, fun he _ => he⟩ h

/-- Every step but a read keeps a cached image, as long as it spares the cache. -/
theorem ImageOk.step (h : Inv env s R Lost) (hi : ImageOk s name data)
    (hmem : name ∈ s.inCache.map Prod.fst) (hspares : SparesCache s a)
    (hs : step env s a = some s') : ImageOk s' name data := by
  obtain ⟨hstepped, htimes⟩ := step_stepped hs
  cases hstepped with
  | @startSession iv _ =>
    exact (hi.startSession (Nat.lt_of_le_of_lt (Nat.le_add_right _ 2) htimes) iv).setPhase _
  | processOff _ _ =>
    apply hi.keep
    unfold startOffline
    dsimp only
    split
    · exact ⟨Nat.le_succ _, rfl, rfl, rfl, fun _ => rfl⟩
    · exact ⟨Nat.le_succ _, rfl, rfl, rfl, fun _ => rfl⟩
  | offlinedeltaTure _ =>
    obtain ⟨c, t, hframe⟩ := OfflinedeltaTure_frame _ _ s
    apply hi.keep
    rw [hframe]
    exact ⟨Nat.le_refl _, rfl, rfl, rfl, fun _ => rfl⟩
  | storeChunk _ =>
    exact (hi.storeChunk htimes).setPhase _
  | endBatch _ _ =>
    obtain ⟨di, tmp, skip, hframe⟩ := finishBatch_frame _ s
    apply hi.keep
    rw [hframe]
    exact ⟨Nat.le_refl _, rfl, rfl, rfl, fun _ => rfl⟩
  | updateOutIndex hphase =>
    obtain ⟨idx, sf, hframe, _⟩ := h.registered hphase
    apply hi.keep
    rw [hframe]
    exact ⟨Nat.le_refl _, rfl, rfl, rfl, fun _ => rfl⟩
  | uploadRecipeEnd _ => exact hi.uploadRecipeEnd.setPhase _
  | disconnect _ => exact (hi.closeSession htimes).setPhase _
  | openFile _ _ hqueue => exact hi.openFile hqueue
  | @writeFile n c written _ hwriter =>
    have hplace := h.stores.holds.place c.path
    rw [hwriter, writingAt_some, if_pos rfl] at hplace
    exact hi.writeFile hwriter hplace.of_writing.2.2.1 n
  | closeFile _ _ =>
    exact ⟨hi.drawn, hi.closed, hi.queued, fun c n hw => absurd hw (by simp), hi.image⟩
  | updatePair _ _ ht =>
    have hkept := Easy_update_pair_kept ht
    exact hi.keep ⟨hkept.times, hkept.opened, hkept.inputMQ, hkept.writer, hkept.files⟩
  | coldrevise _ _ _ =>
    apply hi.keep
    dsimp only
    split
    · refine ⟨Nat.le_refl _, rfl, rfl, rfl, fun name => ?_⟩
      change (s.files.insert (true, s.hot_container.containerID) _).lookup (false, name) = _
      rw [Table.lookup_insert_ite, if_neg (by simp)]
    · exact ⟨Nat.le_refl _, rfl, rfl, rfl, fun _ => rfl⟩
  | updateCold hphase _ ht =>
    refine (hi.updateCold h hphase ?_ ht).setPhase _
    rintro rfl
    exact hspares.1 _ rfl hmem
  | mergePair hphase ht =>
    refine (hi.mergePair h hphase ?_ ht).setPhase _
    rintro rfl
    refine hspares.2 _ ?_ hmem
    unfold mergedBy
    rw [hphase]
    exact Option.mem_some_self _
  | _ => exact hi.keep ⟨Nat.le_refl _, rfl, rfl, rfl, fun _ => rfl⟩

/-- The entries of the base containers follow their files. -/
theorem Filed.step (h : Inv env s R Lost) (hi : ImageOk s name data)
    (hmem : name ∈ s.inCache.map Prod.fst) (hspares : SparesCache s a) (hfiled : Filed s name)
    (hs : step env s a = some s') : Filed s' name := by
  have hi' := hi.step h hmem hspares hs
  have hnames := h.newNames hs
  obtain ⟨hstepped, htimes⟩ := step_stepped hs
  -- where no entry comes to the container and its file stays
  have hsame : ¬Rewrites a → (∀ fp e, Entry s'.indexObj (inflight s'.phase).1 fp e →
      pathOf e = (false, name) → Entry s.indexObj (inflight s.phase).1 fp e) → Filed s' name := by
    intro hrewrites hentry fp e he hpath
    obtain ⟨body, hbody⟩ := Option.ne_none_iff_exists'.mp (hfiled fp e (hentry fp e he hpath) hpath)
    obtain ⟨body', hbody', _⟩ := hnames.kept hrewrites _ body hbody
    rw [hbody']
    exact Option.some_ne_none _
  have hphases : ∀ {phase : Phase}, s.phase = phase → ∀ {fp e},
      Entry s.indexObj (inflight phase).1 fp e → Entry s.indexObj (inflight s.phase).1 fp e := by
    rintro phase rfl fp e
    exact id
  cases hstepped with
  | startSession hphase => exact hsame id fun _ _ he _ => hphases hphase he
  | processOff hphase _ =>
    apply hsame id
    unfold startOffline
    dsimp only
    split
    · exact fun _ _ he _ => hphases hphase he
    · exact fun _ _ he _ => he
  | uploadChunk hphase _ => exact hsame id fun _ _ he _ => hphases hphase he
  | offlinedeltaTure hphase =>
    obtain ⟨c, t, hframe⟩ := OfflinedeltaTure_frame _ _ s
    apply hsame id
    rw [hframe]
    exact fun _ _ he _ => hphases hphase he
  | @storeChunk x b hphase =>
    obtain ⟨q, o, t, n, hframe, hle⟩ := storeChunk_frame env x s
    have htimes' : s.con_times < 2 ^ 31 := by
      apply Nat.lt_of_le_of_lt hle
      change (storeChunk env x s).2.2.con_times < 2 ^ 31 at htimes
      rw [hframe] at htimes
      exact htimes
    obtain ⟨R', a, buf, hinv, hadded, _, _, haddr⟩ := storeChunk_inv h hphase htimes'
    intro fp e he hpath
    -- the record is in a container that nothing but its file can hold
    have hR : R' (false, name) ≠ none := by
      have hindex : (storeChunk env x s).2.2.indexObj = s.indexObj := by rw [hframe]
      have hcases : Entry s.indexObj b.done fp e ∨
          (fp = (storeChunk env x s).1.chunkHash ∧ e = (storeChunk env x s).1.chunkAddr) := by
        apply entry_snoc.mp
        rw [← hindex]
        exact he
      rcases hcases with hold | ⟨_, rfl⟩
      · have hold' := hphases hphase hold
        exact hadded.grows.ne_none (h.denotes (Or.inl (hfiled fp e hold' hpath)))
      · obtain ⟨rs, hrs, _⟩ := hadded.recorded _ (List.mem_singleton_self _)
        rw [← haddr, hpath] at hrs
        rw [hrs]
        exact Option.some_ne_none rs
    obtain ⟨rs, hrs⟩ := Option.ne_none_iff_exists'.mp hR
    rw [(hi'.holds hinv hrs).1]
    exact Option.some_ne_none _
  | endBatch hphase _ =>
    obtain ⟨di, tmp, skip, hframe⟩ := finishBatch_frame _ s
    apply hsame id
    rw [hframe]
    exact fun _ _ he _ => hphases hphase he
  | updateOutIndex hphase =>
    obtain ⟨idx, sf, hframe, hidx⟩ := h.registered hphase
    apply hsame id
    rw [hframe]
    intro fp e he _
    exact hphases hphase ((hidx fp e).mp ((entry_lookup _ _ _).mp he))
  | uploadRecipeEnd hphase => exact hsame id fun _ _ he _ => hphases hphase he
  | disconnect hphase =>
    obtain ⟨q, o, t, hframe, _⟩ := closeSession_frame s
    apply hsame id
    rw [hframe]
    rcases hphase with hphase | hphase
    · exact fun _ _ he _ => hphases hphase he
    · exact fun _ _ he _ => hphases hphase he
  | join hphase _ _ => exact hsame id fun _ _ he _ => hphases hphase he
  | updatePair hphase _ ht =>
    have hkept := Easy_update_pair_kept ht
    have hph := hkept.phase.trans hphase
    apply hsame id
    intro fp e he hpath
    dsimp only at he
    rw [hph] at he
    have hne : e.deltaFlag ≠ DELTA := of_decide_eq_false (congrArg Prod.fst hpath)
    exact Or.inl (hkept.entries ((entry_lookup _ _ _).mp he) hne)
  | coldrevise hphase _ _ =>
    apply hsame id
    dsimp only
    split
    · exact fun _ _ he _ => hphases hphase he
    · exact fun _ _ he _ => hphases hphase he
  | @updateCold names containerName t hphase _ ht =>
    obtain ⟨_, hstores, hstage⟩ := h.at hphase
    cases hstage with
    | cold pass _ _ =>
      have hholds := hstores.holds
      rw [pass.writer] at hholds
      obtain ⟨d, rs, kept, hfile, hreloc, _, rfl⟩ :=
        Update_cold_container_eq hholds hstores.indexed ht
      intro fp e he hpath
      change (s.files.insert (d, containerName) _).lookup (false, name) ≠ none
      rw [Table.lookup_insert_ite]
      split
      · exact Option.some_ne_none _
      case isFalse hother =>
        rcases (hreloc.lookup hstores.indexed hholds.ok (entry_lookup s.indexObj) 0 fp e).mp
          ((entry_lookup _ _ _).mp he) with ⟨r, hr, _, rfl⟩ | ⟨hold, _⟩
        · obtain ⟨r₀, hr₀, off, _, rfl⟩ := mem_repack hr
          have hdir : (pathOf r₀.entry).1 = d :=
            congrArg Prod.fst (hreloc.kept_path hholds.ok hr₀)
          have hpath' : pathOf (moved containerName off r₀).entry = (d, containerName) :=
            Prod.ext hdir rfl
          exact absurd (hpath.symm.trans hpath') hother
        · exact hfiled fp e (hphases hphase hold) hpath
  | getMergeContainer hphase => exact hsame id fun _ _ he _ => hphases hphase he
  | @mergePair p rest t hphase ht =>
    obtain ⟨_, hstores, hstage⟩ := h.at hphase
    cases hstage with
    | merge pass _ cold merge =>
      have hholds := hstores.holds
      rw [pass.writer] at hholds
      have hne : p.1 ≠ p.2 := by
        have hdistinct := merge.distinct
        rw [List.flatMap_cons] at hdistinct
        intro heq
        simp [heq] at hdistinct
      obtain ⟨first, rs, hfirst, _, hreloc, rfl⟩ := mergePair_eq hholds hstores.indexed cold hne ht
      intro fp e he hpath
      change ((s.files.insert (false, p.1) _).erase (false, p.2)).lookup (false, name) ≠ none
      rw [Table.lookup_erase_ite, Table.lookup_insert_ite]
      rcases (hreloc.lookup hstores.indexed hholds.ok (entry_lookup s.indexObj) _ fp e).mp
        ((entry_lookup _ _ _).mp he) with ⟨r, hr, _, rfl⟩ | ⟨hold, hsource⟩
      · obtain ⟨r₀, hr₀, off, _, rfl⟩ := mem_repack hr
        have hname : p.1 = name := congrArg Prod.snd hpath
        rw [← hname, if_neg (by simp [hne]), if_pos rfl]
        exact Option.some_ne_none _
      · rw [hpath] at hsource
        rw [if_neg hsource]
        split
        · exact Option.some_ne_none _
        · exact hfiled fp e (hphases hphase hold) hpath
  | endOffline hphase => exact hsame id fun _ _ he _ => hphases hphase he
  | _ => exact hsame id fun _ _ he _ => he

/-- A step that is no read leaves the cache and what is loaded. -/
theorem Stepped.cache (hinv : Inv env s R Lost) (h : Stepped env s a s')
    (hread : a ≠ .offlinedeltaTure) : s'.inCache = s.inCache ∧
      ∀ x b, s'.phase = .uploading (.loaded x b) → s.phase = .uploading (.loaded x b) := by
  cases h with
  | offlinedeltaTure _ => exact absurd rfl hread
  | processOff hphase _ =>
    unfold startOffline
    dsimp only
    split
    · exact ⟨rfl, fun x b h => by simp at h⟩
    · exact ⟨rfl, fun x b h => h⟩
  | storeChunk _ =>
    obtain ⟨q, o, t, n, hframe, _⟩ := storeChunk_frame env _ s
    rw [hframe]
    exact ⟨rfl, fun x b h => by simp at h⟩
  | endBatch _ _ =>
    obtain ⟨di, tmp, skip, hframe⟩ := finishBatch_frame _ s
    rw [hframe]
    exact ⟨rfl, fun x b h => by simp at h⟩
  | updateOutIndex hphase =>
    obtain ⟨idx, sf, hframe, _⟩ := hinv.registered hphase
    rw [hframe]
    exact ⟨rfl, fun x b h => by simp at h⟩
  | disconnect _ =>
    obtain ⟨q, o, t, hframe, _⟩ := closeSession_frame s
    rw [hframe]
    exact ⟨rfl, fun x b h => by simp at h⟩
  | openFile _ _ _ => exact ⟨rfl, fun x b h => h⟩
  | writeFile _ _ => exact ⟨rfl, fun x b h => h⟩
  | closeFile _ _ => exact ⟨rfl, fun x b h => h⟩
  | getLocal _ _ _ => exact ⟨rfl, fun x b h => h⟩
  | updatePair _ _ ht =>
    have hkept := Easy_update_pair_kept ht
    exact ⟨hkept.inCache, fun x b h => hkept.phase.symm.trans h⟩
  | coldrevise _ _ _ =>
    refine ⟨?_, fun x b h => by simp at h⟩
    dsimp only
    split
    · rfl
    · rfl
  | updateCold _ _ ht =>
    obtain ⟨_, _, ht⟩ := Option.bind_eq_some_iff.mp ht
    rw [← Option.some.inj ht]
    exact ⟨rfl, fun x b h => by simp at h⟩
  | mergePair _ ht =>
    obtain ⟨_, _, ht⟩ := Option.bind_eq_some_iff.mp ht
    obtain ⟨_, _, ht⟩ := Option.bind_eq_some_iff.mp ht
    rw [← Option.some.inj ht]
    exact ⟨rfl, fun x b h => by simp at h⟩
  | _ => exact ⟨rfl, fun x b h => by simp at h⟩

/-- The cached images are those of complete files, and the base that is loaded is from one. -/
structure CacheOk (s : Server) : Prop where
  images : ∀ c ∈ s.inCache, ImageOk s c.1 c.2 ∧ Filed s c.1
  loaded : ∀ x b, s.phase = .uploading (.loaded x b) → x.deltaFlag = DELTA →
    (x.basechunkAddr.containerName, x.containerbuffer) ∈ s.inCache

theorem CacheOk.step (h : Inv env s R Lost) (hok : CacheOk s) (hreads : ReadsComplete s a)
    (hspares : SparesCache s a) (hs : step env s a = some s') : CacheOk s' := by
  have hold : ∀ c ∈ s.inCache, ImageOk s' c.1 c.2 ∧ Filed s' c.1 := by
    intro c hc
    obtain ⟨himage, hfiled⟩ := hok.images c hc
    have hmem : c.1 ∈ s.inCache.map Prod.fst := List.mem_map.mpr ⟨c, hc, rfl⟩
    exact ⟨himage.step h hmem hspares hs, hfiled.step h himage hmem hspares hs⟩
  obtain ⟨hstepped, _⟩ := step_stepped hs
  by_cases hread : a = .offlinedeltaTure
  · subst hread
    cases hstepped with
    | @offlinedeltaTure Local_Flag x todo done process_buffer batch_basemap hphase =>
      obtain ⟨_, _, hstage⟩ := h.at hphase
      cases hstage with
      | chunkLoop wait body batch =>
        have hflag : x.deltaFlag ≠ DELTA := by
          rcases (batch.todo x List.mem_cons_self).2.1 with hx | hx
          · rw [hx]
            decide
          · rw [hx]
            decide
        have hfetched := OfflinedeltaTure_fetched Local_Flag s hflag
        obtain ⟨c, t, hframe⟩ := OfflinedeltaTure_frame Local_Flag x s
        refine ⟨fun c' hc' => ?_, fun y b hy hdelta => ?_⟩
        · rcases hfetched.cache c' hc' with hc' | ⟨hreadsFile, hname, file, hfile, hdata⟩
          · exact hold c' hc'
          · have hwritten : ¬HalfWritten s (false, x.basechunkAddr.containerName) := by
              refine hreads (Local_Flag, x) ?_ hreadsFile
              unfold loadedBy
              rw [hphase]
              exact Option.mem_some_self _
            have himage := ImageOk.read h hphase hfile hwritten s.tmpOcallcontainer
            rw [hname, hdata, hframe]
            refine ⟨himage.keep ⟨Nat.le_refl _, rfl, rfl, rfl, fun _ => rfl⟩, ?_⟩
            intro fp e _ _
            change s.files.lookup (false, x.basechunkAddr.containerName) ≠ none
            rw [hfile]
            exact Option.some_ne_none _
        · obtain ⟨rfl, _⟩ := UploadStage.loaded.inj (Phase.uploading.inj hy)
          rw [hfetched.addr]
          exact hfetched.loaded hdelta
  · obtain ⟨hcache, hphase⟩ := hstepped.cache h hread
    refine ⟨?_, fun x b hx hdelta => ?_⟩
    · rw [hcache]
      exact hold
    · rw [hcache]
      exact hok.loaded x b (hphase x b hx) hdelta

/-- The record of a base chunk, in the file of its container and in the cached image. -/
theorem CacheOk.stands (h : Inv env s R Lost) (hok : CacheOk s) {fp : Fp} {e : RecipeEntry}
    (he : s.indexObj.lookup fp = some e) (hflag : e.deltaFlag = NO_DELTA)
    (hmem : (e.containerName, data) ∈ s.inCache) : ∃ r body, r.entry = e ∧
      s.files.lookup (false, e.containerName) = some body ∧
      completed s (false, e.containerName) = some body ∧ StandsIn body r ∧ StandsIn data r := by
  obtain ⟨himage, hfiled⟩ := hok.images _ hmem
  have hpath : pathOf e = (false, e.containerName) := by
    unfold pathOf
    rw [hflag]
    rfl
  have hthere := hfiled fp e (Or.inl he) hpath
  obtain ⟨rs, hrs⟩ := Option.ne_none_iff_exists'.mp (h.denotes (Or.inl hthere))
  obtain ⟨hfile, hwriter⟩ := himage.holds h hrs
  obtain ⟨r, hr, _, hentry⟩ := h.stores.indexed.entry (Or.inl he) (by rw [hpath]; exact hrs)
  have hpacked := h.stores.holds.ok.packed hrs
  have hstands := Packed.standsIn ⟨rfl, hpacked.packed, Nat.le_of_lt hpacked.fits⟩ hr
  refine ⟨r, layout rs, hentry, hfile, ?_, hstands, ?_⟩
  · unfold completed
    cases hw : writingAt s.writer (false, e.containerName) with
    | none => exact hfile
    | some w =>
      obtain ⟨hwriter', hpath'⟩ := Option.filter_eq_some_iff.mp hw
      exact congrArg some (hwriter w.1 w.2 hwriter' (of_decide_eq_true hpath'))
  · rw [← List.take_append_drop (layout rs).length data, himage.image _ hfile]
    exact hstands.append _

theorem CacheOk.coherent (h : Inv env s R Lost) (hok : CacheOk s) : CacheCoherent s := by
  intro fp e he hflag data hmem
  obtain ⟨r, body, hentry, hfile, _, hbody, hdata⟩ := hok.stands h he hflag hmem
  have hsize : r.size = e.length.toNat + RECORD_OVERHEAD := by
    unfold ChunkRecord.size
    rw [← hentry, hbody.length]
  have hle := hbody.le
  have hbytes := hbody.bytes
  have hbytes' := hdata.bytes
  rw [hsize, hentry] at hle hbytes hbytes'
  exact ⟨body, hfile, hle, hbytes'.trans hbytes.symm⟩

/-- The base of a loaded chunk, as the index has it. -/
theorem Inv.loadedBase (h : Inv env s R Lost) {x : QueryEntry} {b : Batch}
    (hphase : s.phase = .uploading (.loaded x b)) (hdelta : x.deltaFlag = DELTA) :
    s.indexObj.lookup x.basechunkHash = some x.basechunkAddr ∧
      x.basechunkAddr.deltaFlag = NO_DELTA := by
  obtain ⟨hgraph, _, hstage⟩ := h.at hphase
  cases hstage with
  | loaded wait body batch =>
    have hne : DELTA ≠ NO_DELTA := by decide
    have hbased := batch.base x (by simp [batchEntries]) (Or.inl (by rw [hdelta]; exact hne))
    obtain ⟨e, he, hflag⟩ := hgraph.posted_whole hbased.posted
    rw [hbased.addr, Option.some.injEq] at he
    rw [← he] at hflag
    exact ⟨hbased.addr, hflag⟩

theorem CacheOk.restored (h : Inv env s R Lost) (hok : CacheOk s) : BaseRestored env s := by
  intro x b hphase hdelta
  obtain ⟨haddr, hflag⟩ := h.loadedBase hphase hdelta
  obtain ⟨r, body, hentry, hfile, _, hbody, hdata⟩ :=
    hok.stands h haddr hflag (hok.loaded x b hphase hdelta)
  have hthere : s.files.lookup (pathOf x.basechunkAddr) = some body := by
    unfold pathOf
    rw [hflag]
    exact hfile
  obtain ⟨hiv, hcontent, _⟩ := StandsIn.after hbody hentry
  obtain ⟨hiv', hcontent', _⟩ := StandsIn.after hdata hentry
  unfold restoredBase refChunk
  simp only [haddr, Option.bind_eq_bind, Option.bind_some, hiv', hcontent']
  rw [hthere, Option.bind_some, hiv, hcontent]
  rfl

theorem cacheOk_start (Forward_Flag Offline_Flag : Bool) :
    CacheOk (Server.start Forward_Flag Offline_Flag) := by
  refine ⟨fun c hc => ?_, fun x b h => ?_⟩
  · simp [Server.start] at hc
  · simp [Server.start] at h

/-- A run whose reads and rewrites meet the two conditions. -/
theorem runs_cacheOk {Forward_Flag Offline_Flag : Bool} {acts : List Action}
    (hrun : runs (step env) (Server.start Forward_Flag Offline_Flag) acts = some s)
    (hreads : StepsMeet (step env) ReadsComplete (Server.start Forward_Flag Offline_Flag) acts)
    (hspares : StepsMeet (step env) SparesCache (Server.start Forward_Flag Offline_Flag) acts) :
    (∃ R Lost, Inv env s R Lost) ∧ CacheOk s := by
  apply runs_preserve (P := fun s => (∃ R Lost, Inv env s R Lost) ∧ CacheOk s) _
    ⟨⟨_, _, Inv.start Forward_Flag Offline_Flag⟩, cacheOk_start _ _⟩ (hreads.and hspares) hrun
  rintro s s' a ⟨⟨R, Lost, hinv⟩, hok⟩ ⟨hr, hsp⟩ hs
  exact ⟨hinv.step hs, hok.step hinv hr hsp hs⟩

end Steps

section Law
variable {env : EnclaveEnv} {s : Server}

/-- The images in the cache are coherent with the files, and a base is encoded against as it will be
restored, in every state of a run that reads no unfinished file and rewrites no cached one. -/
theorem cache_coherent {Forward_Flag Offline_Flag : Bool} {acts : List Action}
    (hrun : runs (step env) (Server.start Forward_Flag Offline_Flag) acts = some s)
    (hreads : StepsMeet (step env) ReadsComplete (Server.start Forward_Flag Offline_Flag) acts)
    (hspares : StepsMeet (step env) SparesCache (Server.start Forward_Flag Offline_Flag) acts) :
    CacheCoherent s ∧ BaseRestored env s := by
  obtain ⟨⟨R, Lost, hinv⟩, hok⟩ := runs_cacheOk hrun hreads hspares
  exact ⟨hok.coherent hinv, hok.restored hinv⟩

end Law

/-- Chunks with the same first byte are similar. -/
def firstByteEnv : EnclaveEnv :=
  { lz4Env with getSF2 := fun chunk => FixedBytes.fill 96 (chunk.getD 0 0) }

/-- A batch with `new` chunks that nobody has. -/
def uploadBatch (chunks : List Bytes) (new : Nat) : List Action :=
  .uploadChunk chunks (fun _ => false) (fun _ => emptyEntry) ::
    ((List.replicate new [Action.offlinedeltaTure, .storeChunk]).flatten ++
      [.endBatch, .updateOutIndex])

/-- The writer thread with one container. -/
def saveOne : List Action := [.openFile, .writeFile 1000, .closeFile]

/-- A session stores two chunks; one of them is `plainBase`. The next session stores a delta against
it, with its container in the cache, and a new base for it. The pass rebases it and compacts the
container. -/
def rebasing (first : List Bytes) : List Action :=
  [[.startSession (FixedBytes.fill 16 0)],
    uploadBatch first 2,
    [.uploadRecipeEnd, .disconnect], saveOne, [.join, .startSession (FixedBytes.fill 16 0)],
    uploadBatch (dependentChunk 1 :: List.replicate 33 plainBase) 1,
    uploadBatch [dependentChunk 2] 1,
    [.uploadRecipeEnd, .disconnect], saveOne, saveOne,
    [.join, .processOff [(plainFp plainBase, plainFp (dependentChunk 2))], .getLocal,
      .updatePair (plainFp plainBase), .coldrevise, .updateCold (CreateUUID 1)]].flatten

/-- A chunk like no other of these. -/
def otherBase : Bytes := List.replicate 24 2

/-- The chunk before the rebased one stays in its place. -/
theorem cache_coherent_last : ∃ s,
    runs (step firstByteEnv) (Server.start false true) (rebasing [otherBase, plainBase]) = some s ∧
    s.inCache.map Prod.fst = [CreateUUID 1] ∧ CacheCoherent s ∧ BaseRestored firstByteEnv s := by
  have hrun : ((runs (step firstByteEnv) (Server.start false true)
      (rebasing [otherBase, plainBase])).map fun s => s.inCache.map Prod.fst) =
        some [CreateUUID 1] := by
    decide +kernel
  have hreads : StepsMeet (step firstByteEnv) ReadsComplete (Server.start false true)
      (rebasing [otherBase, plainBase]) := by
    decide +kernel
  have hspares : StepsMeet (step firstByteEnv) SparesCache (Server.start false true)
      (rebasing [otherBase, plainBase]) := by
    decide +kernel
  obtain ⟨s, hs, hcache⟩ := Option.map_eq_some_iff.mp hrun
  exact ⟨s, hs, hcache, cache_coherent hs hreads hspares⟩

/-- The chunk behind the rebased one moves to its place in the file, and not in the cache. -/
theorem cache_stale : ∃ s,
    runs (step firstByteEnv) (Server.start false true) (rebasing [plainBase, otherBase]) = some s ∧
    ¬CacheCoherent s := by
  have hrun : ((runs (step firstByteEnv) (Server.start false true)
      (rebasing [plainBase, otherBase])).any fun s =>
        match s.indexObj.lookup (plainFp otherBase) with
        | none => false
        | some e => s.inCache.any fun c => decide (e.deltaFlag = NO_DELTA ∧
            c.1 = e.containerName ∧ ∃ body ∈ s.files.lookup (false, e.containerName),
              recordBytes c.2 e ≠ recordBytes body e)) = true := by
    decide +kernel
  obtain ⟨s, hs, htest⟩ := (Option.any_eq_true _ _).mp hrun
  refine ⟨s, hs, fun hcoherent => ?_⟩
  cases hentry : s.indexObj.lookup (plainFp otherBase) with
  | none => simp [hentry] at htest
  | some e =>
    simp only [hentry] at htest
    obtain ⟨⟨name, data⟩, hmem, hc⟩ := List.any_eq_true.mp htest
    obtain ⟨hflag, hname, body, hbody, hne⟩ := of_decide_eq_true hc
    dsimp only at hname
    subst hname
    obtain ⟨body', hbody', _, hbytes⟩ := hcoherent _ e hentry hflag data hmem
    rw [Option.mem_def, hbody', Option.some.injEq] at hbody
    rw [← hbody] at hne
    exact hne hbytes

end ShieldReduce.Prototype
