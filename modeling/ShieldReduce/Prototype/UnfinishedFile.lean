import ShieldReduce.Prototype.CachedImages

/-!
# Base containers that are still written

A container is in the indexes before the writer thread has got it. A batch that finds its file on
disk reads whatever the writer thread has put there.
-/

namespace ShieldReduce.Prototype
open Lib Store EDelta

/-- `ProcessDeltachunk` is about to use the record of its base in the completed container. -/
def BaseComplete (s : Server) : Prop :=
  ∀ x b, s.phase = .uploading (.loaded x b) → x.deltaFlag = DELTA →
    s.indexObj.lookup x.basechunkHash = some x.basechunkAddr ∧
      ∃ body, completed s (false, x.basechunkAddr.containerName) = some body ∧
        x.basechunkAddr.offset.toNat + (x.basechunkAddr.length.toNat + RECORD_OVERHEAD) ≤
          body.length ∧
        recordBytes x.containerbuffer x.basechunkAddr = recordBytes body x.basechunkAddr

section Law
variable {env : EnclaveEnv} {s : Server}

theorem CacheOk.complete {R : Records} {Lost : Fp → Prop} (h : Inv env s R Lost)
    (hok : CacheOk s) : BaseComplete s := by
  intro x b hphase hdelta
  obtain ⟨haddr, hflag⟩ := h.loadedBase hphase hdelta
  have hmem := hok.loaded x b hphase hdelta
  obtain ⟨body, hfile, hle, hbytes⟩ := hok.coherent h _ _ haddr hflag _ hmem
  obtain ⟨_, body', _, hfile', hcompleted, _, _⟩ := hok.stands h haddr hflag hmem
  rw [hfile, Option.some.injEq] at hfile'
  rw [← hfile'] at hcompleted
  exact ⟨haddr, body, hcompleted, hle, hbytes⟩

/-- In every state of a run that reads no unfinished file and rewrites no cached one, a chunk is
encoded against the record of the completed container. -/
theorem base_complete {Forward_Flag Offline_Flag : Bool} {acts : List Action}
    (hrun : runs (step env) (Server.start Forward_Flag Offline_Flag) acts = some s)
    (hreads : StepsMeet (step env) ReadsComplete (Server.start Forward_Flag Offline_Flag) acts)
    (hspares : StepsMeet (step env) SparesCache (Server.start Forward_Flag Offline_Flag) acts) :
    BaseComplete s := by
  obtain ⟨⟨R, Lost, hinv⟩, hok⟩ := runs_cacheOk hrun hreads hspares
  exact hok.complete hinv

end Law

/-- A batch of one chunk up to the load of its base. -/
def loadOne (chunk : Bytes) : List Action :=
  [.uploadChunk [chunk] (fun _ => false) fun _ => emptyEntry, .offlinedeltaTure]

/-- A session with the base, and one that goes on with a dependent. -/
def loadDependent : List Action :=
  [[.startSession (FixedBytes.fill 16 0)], uploadOne plainBase, [.uploadRecipeEnd, .disconnect],
    saveOne, [.join, .startSession (FixedBytes.fill 16 0)], loadOne (dependentChunk 1)].flatten

/-- The chunk that `ProcessDeltachunk` is about to encode. -/
def encoded (s : Server) : Option QueryEntry :=
  match s.phase with
  | .uploading (.loaded x _) => if x.deltaFlag = DELTA then some x else none
  | _ => none

theorem base_complete_one : ∃ s,
    runs (step plainEnv) (Server.start true false) loadDependent = some s ∧
    (encoded s).map QueryEntry.chunk = some (dependentChunk 1) ∧ BaseComplete s := by
  have hrun : ((runs (step plainEnv) (Server.start true false) loadDependent).bind fun s =>
      (encoded s).map QueryEntry.chunk) = some (dependentChunk 1) := by
    decide +kernel
  have hreads : StepsMeet (step plainEnv) ReadsComplete (Server.start true false)
      loadDependent := by
    decide +kernel
  have hspares : StepsMeet (step plainEnv) SparesCache (Server.start true false)
      loadDependent := by
    decide +kernel
  obtain ⟨s, hs, hencoded⟩ := Option.bind_eq_some_iff.mp hrun
  exact ⟨s, hs, hencoded, base_complete hs hreads hspares⟩

/-- A byte of a word: two bits for its place and six of the twelve that number the word. -/
def wordByte (k place : Nat) : UInt8 :=
  UInt8.ofNat (64 * place + if place = 0 ∨ place = 3 then k / 64 % 64 else k % 64)

/-- A chunk of the maximal size that LZ4 refuses: 4096 words, all different. -/
def fullChunk (n : Nat) : Bytes :=
  (List.range MAX_CHUNK_SIZE).map fun p => wordByte (n + p / 4) (p % 4)

/-- One session with the base and `n` full chunks. -/
def fullUploads : Nat → List Action
  | 0 => .startSession (FixedBytes.fill 16 0) :: uploadOne plainBase
  | n + 1 => fullUploads n ++ uploadOne (fullChunk (n + 1))

/-- The container of the base is still in the enclave, or the writer thread has to write it. -/
def Unwritten (entry : RecipeEntry) (n : Nat) (s : Server) : Prop :=
  (s.inputMQ = [] ∧ (s.opened false).containerID = entry.containerName ∧
    n * MAX_CHUNK_SIZE ≤ (s.opened false).buf.length ∧
    (s.opened false).buf.length < MAX_CONTAINER_SIZE) ∨
  ∃ c inputMQ, s.inputMQ = c :: inputMQ ∧ c.path = (false, entry.containerName)

/-- The server after `n` full chunks; nothing has been written yet. -/
structure Growing (entry : RecipeEntry) (n : Nat) (s : Server) : Prop where
  phase : s.phase = .uploading .ready
  forward : s.Forward_Flag = true
  base : s.indexObj.lookup (plainFp plainBase) = some entry
  posted : (Table.vec (s.sfObj 0) (sfKey (FixedBytes.fill 96 0) 0)).head? =
    some (plainFp plainBase)
  cache : s.inCache = []
  scratch : s.tmpOcallcontainer = []
  file : s.files.lookup (false, entry.containerName) = none
  writer : s.writer = none
  known : ∀ fp ∈ s.indexObj.keys, fp = plainFp plainBase ∨ ∃ m ≤ n, fp = plainFp (fullChunk m)
  times : s.con_times ≤ n + 5
  container : Unwritten entry n s

section Growth
variable {entry : RecipeEntry} {s : Server} {n : Nat}

theorem fullChunk_length (n : Nat) : (fullChunk n).length = MAX_CHUNK_SIZE := by
  unfold fullChunk
  rw [List.length_map, List.length_range]

theorem wordByte_eq {k k' place place' : Nat} (hplace : place < 4) (hplace' : place' < 4)
    (h : wordByte k place = wordByte k' place') :
    place = place' ∧ (if place = 0 ∨ place = 3 then k / 64 % 64 else k % 64) =
      if place = 0 ∨ place = 3 then k' / 64 % 64 else k' % 64 := by
  have hnat := congrArg UInt8.toNat h
  unfold wordByte at hnat
  rw [UInt8.toNat_ofNat', UInt8.toNat_ofNat'] at hnat
  have hdigit : ∀ k place, (if place = 0 ∨ place = 3 then k / 64 % 64 else k % 64) < 64 := by
    intro k place
    split
    · exact Nat.mod_lt _ (by decide)
    · exact Nat.mod_lt _ (by decide)
  have h₁ := hdigit k place
  have h₂ := hdigit k' place'
  generalize hd : (if place = 0 ∨ place = 3 then k / 64 % 64 else k % 64) = d at hnat h₁
  generalize hd' : (if place' = 0 ∨ place' = 3 then k' / 64 % 64 else k' % 64) = d' at hnat h₂
  have hsame : place = place' := by omega
  rw [← hsame] at hd'
  refine ⟨hsame, ?_⟩
  rw [hd']
  omega

/-- Four bytes in a row tell their word: they hold both halves of its number, or of the next. -/
theorem fullChunk_words (n : Nat) : WordsDiffer (fullChunk n) := by
  intro m p hlt hp hsame
  rw [fullChunk_length] at hp
  have hmax : MAX_CHUNK_SIZE = 16384 := rfl
  unfold MINMATCH at hp hsame
  have hbyte : ∀ t < 4, wordByte (n + (m + t) / 4) ((m + t) % 4) =
      wordByte (n + (p + t) / 4) ((p + t) % 4) := by
    intro t ht
    have hget := congrArg (fun l => l[t]?) hsame
    unfold slice fullChunk at hget
    simp only [List.getElem?_take_of_lt ht, List.getElem?_drop] at hget
    rw [List.getElem?_map, List.getElem?_map, List.getElem?_range (by omega),
      List.getElem?_range (by omega)] at hget
    exact Option.some.inj hget
  have hdigit : ∀ t < 4, (m + t) % 4 = (p + t) % 4 ∧
      (if (m + t) % 4 = 0 ∨ (m + t) % 4 = 3 then (n + (m + t) / 4) / 64 % 64
        else (n + (m + t) / 4) % 64) =
      if (m + t) % 4 = 0 ∨ (m + t) % 4 = 3 then (n + (p + t) / 4) / 64 % 64
        else (n + (p + t) / 4) % 64 :=
    fun t ht => wordByte_eq (Nat.mod_lt _ (by decide)) (Nat.mod_lt _ (by decide)) (hbyte t ht)
  have hplace := (hdigit 0 (by decide)).1
  have hhigh : ∀ t < 4, (m + t) % 4 = 0 ∨ (m + t) % 4 = 3 →
      (n + (m + t) / 4) / 64 % 64 = (n + (p + t) / 4) / 64 % 64 := by
    intro t ht hcase
    have heq := (hdigit t ht).2
    rwa [if_pos hcase, if_pos hcase] at heq
  have hlow : ∀ t < 4, ¬((m + t) % 4 = 0 ∨ (m + t) % 4 = 3) →
      (n + (m + t) / 4) % 64 = (n + (p + t) / 4) % 64 := by
    intro t ht hcase
    have heq := (hdigit t ht).2
    rwa [if_neg hcase, if_neg hcase] at heq
  obtain hm | hm | hm | hm : m % 4 = 0 ∨ m % 4 = 1 ∨ m % 4 = 2 ∨ m % 4 = 3 := by omega
  · have h₀ := hhigh 0 (by decide) (by omega)
    have h₁ := hlow 1 (by decide) (by omega)
    omega
  · have h₀ := hlow 0 (by decide) (by omega)
    have h₂ := hhigh 2 (by decide) (by omega)
    omega
  · have h₀ := hlow 0 (by decide) (by omega)
    have h₁ := hhigh 1 (by decide) (by omega)
    omega
  · have h₁ := hhigh 1 (by decide) (by omega)
    have h₂ := hlow 2 (by decide) (by omega)
    omega

/-- The fingerprint of a full chunk begins with the number of its first word. -/
theorem plainFp_fullChunk (n : Nat) :
    (plainFp (fullChunk n)).val = (List.range 32).map fun p => wordByte (n + p / 4) (p % 4) := by
  have hmax : 32 ≤ MAX_CHUNK_SIZE := by decide
  change readAt (fullChunk n) 0 32 = _
  rw [readAt_eq_slice (by rw [fullChunk_length]; omega), slice_zero_eq_take]
  unfold fullChunk
  rw [← List.map_take, List.take_range, Nat.min_eq_left hmax]

theorem plainFp_full_injective {n m : Nat} (hn : n < 4096) (hm : m < 4096)
    (h : plainFp (fullChunk n) = plainFp (fullChunk m)) : n = m := by
  have hval := congrArg Subtype.val h
  rw [plainFp_fullChunk, plainFp_fullChunk] at hval
  have hhigh : wordByte n 0 = wordByte m 0 := congrArg (fun l => l.getD 0 0) hval
  have hlow : wordByte n 1 = wordByte m 1 := congrArg (fun l => l.getD 1 0) hval
  have h₀ := (wordByte_eq (by decide) (by decide) hhigh).2
  have h₁ := (wordByte_eq (by decide) (by decide) hlow).2
  simp only [true_or, if_true] at h₀
  simp only [Nat.one_ne_zero, false_or, show ¬(1 = 3) by decide, if_false] at h₁
  omega

theorem plainFp_full_base (n : Nat) : plainFp (fullChunk n) ≠ plainFp plainBase := by
  intro h
  have hval := congrArg (fun fp => fp.val.getD 1 0) h
  have hbyte : wordByte n 1 = 1 := by
    rw [plainFp_fullChunk] at hval
    exact hval
  have hnat := congrArg UInt8.toNat hbyte
  unfold wordByte at hnat
  rw [UInt8.toNat_ofNat'] at hnat
  simp at hnat
  omega

theorem QuerySF_head {fp : Fp} {sf : SuperFeature}
    (h : (Table.vec (s.sfObj 0) (sfKey sf 0)).head? = some fp) : QuerySF s sf = some fp := by
  unfold Table.vec at h
  unfold QuerySF
  cases hlook : (s.sfObj 0).lookup (sfKey sf 0) with
  | none => simp [hlook] at h
  | some fps =>
    rw [hlook, Option.getD_some] at h
    rw [List.findSome?_cons, hlook]
    exact h

/-- Where a record goes: behind the others, or to a new container. -/
theorem saveChunk_room (d : Bool) (content : Bytes) (chunkAddr : RecipeEntry) (sf : SuperFeature)
    (fp : Fp) (s : Server) :
    ((saveChunk d content chunkAddr sf fp s).1.inputMQ = s.inputMQ ∧
      ((saveChunk d content chunkAddr sf fp s).1.opened d).containerID =
        (s.opened d).containerID ∧
      ((saveChunk d content chunkAddr sf fp s).1.opened d).buf.length =
        (s.opened d).buf.length + (content.length + RECORD_OVERHEAD) ∧
      (s.opened d).buf.length + (content.length + RECORD_OVERHEAD) < MAX_CONTAINER_SIZE) ∨
    (saveChunk d content chunkAddr sf fp s).1.inputMQ =
      s.inputMQ ++ [⟨(s.opened d).containerID, d, (s.opened d).buf⟩] := by
  by_cases hfits : recordFits content (s.opened d).buf.length
  · left
    unfold saveChunk
    rw [if_pos hfits]
    dsimp only
    rw [Function.update_self]
    refine ⟨rfl, rfl, ?_, ?_⟩
    · rw [List.length_append, ChunkRecord.toBytes_length]
      rfl
    · unfold recordFits at hfits
      unfold RECORD_OVERHEAD
      omega
  · right
    unfold saveChunk
    rw [if_neg hfits, writeContainer_full]
    rfl

/-- A full chunk takes up room in the container of the base, or closes it. -/
theorem Unwritten.store (h : Unwritten entry n s) {chunkAddr : RecipeEntry} {chunkBuffer : Bytes}
    {sf : SuperFeature} {fp : Fp} (hflag : chunkAddr.deltaFlag = NO_DELTA)
    (hlen : chunkBuffer.length = MAX_CHUNK_SIZE) (hwords : WordsDiffer chunkBuffer) :
    Unwritten entry (n + 1) (ProcessSheUniqueChunk lz4Env chunkAddr chunkBuffer sf fp s).1 := by
  obtain ⟨size, heq⟩ := ProcessSheUniqueChunk_eq lz4Env chunkAddr chunkBuffer sf fp s
  have hd : decide (chunkAddr.deltaFlag ≠ NO_DELTA) = false := by simp [hflag]
  have hcipher : (uniqueCipher lz4Env chunkAddr chunkBuffer s).length = MAX_CHUNK_SIZE := by
    have hraw : lz4Env.LZ4_compress_fast chunkBuffer = none := hwords.compress_none 3
    unfold uniqueCipher uniqueContent
    rw [lz4Env.EncryptWithKeyIV_length, if_pos hflag, hraw]
    exact hlen
  have hroom := saveChunk_room false (uniqueCipher lz4Env chunkAddr chunkBuffer s)
    (uniqueAddr chunkAddr (uniqueCipher lz4Env chunkAddr chunkBuffer s).length sf) sf fp
    { s with
      iv := PickNewIV s.iv
      onlineBackupSize := size }
  rw [heq, hd]
  generalize (saveChunk false (uniqueCipher lz4Env chunkAddr chunkBuffer s)
    (uniqueAddr chunkAddr (uniqueCipher lz4Env chunkAddr chunkBuffer s).length sf) sf fp
    { s with
      iv := PickNewIV s.iv
      onlineBackupSize := size }).1 = t at hroom ⊢
  dsimp only at hroom
  rw [hcipher] at hroom
  rcases h with ⟨hqueue, hname, hle, _⟩ | ⟨c, inputMQ, hqueue, hpath⟩
  · rcases hroom with ⟨hqueue', hname', hlen', hlt⟩ | hqueue'
    · refine Or.inl ⟨hqueue'.trans hqueue, hname'.trans hname, ?_, ?_⟩
      · rw [hlen', Nat.add_mul, Nat.one_mul]
        omega
      · rw [hlen']
        exact hlt
    · refine Or.inr ⟨⟨(s.opened false).containerID, false, (s.opened false).buf⟩, [], ?_, ?_⟩
      · rw [hqueue', hqueue]
        rfl
      · exact Prod.ext rfl hname
  · rcases hroom with ⟨hqueue', _⟩ | hqueue'
    · exact Or.inr ⟨c, inputMQ, hqueue'.trans hqueue, hpath⟩
    · refine Or.inr ⟨c, inputMQ ++ [⟨(s.opened false).containerID, false, (s.opened false).buf⟩],
        ?_, hpath⟩
      rw [hqueue', hqueue, List.cons_append]

/-- The full chunk as it is stored: its base is in no file. -/
def missedEntry (entry : RecipeEntry) (chunk : Bytes) : QueryEntry :=
  { dependentEntry entry 0 with
    inHash := plainFp chunk
    chunkHash := plainFp chunk
    chunk := chunk
    deltaFlag := NO_DELTA }

theorem OfflinedeltaTure_missed {x : QueryEntry} (hnever : neverDelta x.inHash = false)
    (hout : x.deltaFlag = OUT_DELTA) (hcache : s.inCache = [])
    (hfile : s.files.lookup (false, x.basechunkAddr.containerName) = none) :
    OfflinedeltaTure false x s = ({ x with deltaFlag := NO_DELTA }, none, s) := by
  have hread : ReadFromCache x.basechunkAddr.containerName s = none := by
    unfold ReadFromCache
    rw [hcache]
    rfl
  have hload : Ocall_getRefContainer x.basechunkAddr.containerName s = none := by
    unfold Ocall_getRefContainer
    rw [hfile]
    rfl
  unfold OfflinedeltaTure
  rw [hnever, hread]
  simp only [hout, hload]
  rfl

theorem neverDelta_full (n : Nat) : neverDelta (plainFp (fullChunk n)) = false := by
  have hbyte : wordByte n 0 ≠ 161 := by
    intro heq
    have hnat := congrArg UInt8.toNat heq
    unfold wordByte at hnat
    rw [UInt8.toNat_ofNat'] at hnat
    simp at hnat
    omega
  obtain ⟨rest, hrest⟩ : ∃ rest, (plainFp (fullChunk n)).val = wordByte n 0 :: rest := by
    rw [plainFp_fullChunk]
    exact ⟨_, rfl⟩
  unfold neverDelta
  rw [hrest, List.take_succ_cons]
  simp [hbyte]

/-- The next full chunk is new. -/
theorem Growing.fresh (h : Growing entry n s) (hn : n + 1 < 4096) :
    s.indexObj.lookup (plainFp (fullChunk (n + 1))) = none := by
  rw [AList.lookup_eq_none]
  intro hmem
  rcases h.known _ hmem with heq | ⟨m, hm, heq⟩
  · exact plainFp_full_base _ heq
  · have := plainFp_full_injective hn (by omega) heq
    omega

theorem queryBatch_lz4 {chunk : Bytes} (hforward : s.Forward_Flag = true)
    (hbase : s.indexObj.lookup (plainFp plainBase) = some entry)
    (hposted : (Table.vec (s.sfObj 0) (sfKey (FixedBytes.fill 96 0) 0)).head? =
      some (plainFp plainBase)) (hnone : s.indexObj.lookup (plainFp chunk) = none) :
    queryBatch lz4Env [chunk] (fun _ => false) (fun _ => emptyEntry) s =
      ⟨false, [{ missedEntry entry chunk with deltaFlag := OUT_DELTA }], [], [], []⟩ :=
  queryBatch_dependent hforward hbase (QuerySF_head hposted) hnone

/-- The message of one chunk. -/
theorem step_uploadOne {chunk : Bytes} {heap : Fp → Bool} {left : Nat → RecipeEntry} {b : Batch}
    (hphase : s.phase = .uploading .ready) (htimes : s.con_times < 2 ^ 31)
    (hsize : chunk.length = MAX_CHUNK_SIZE)
    (hquery : queryBatch lz4Env [chunk] heap left s = b) :
    step lz4Env s (.uploadChunk [chunk] heap left) =
      some { s with phase := .uploading (.chunkLoop b) } := by
  apply step_of_upload hphase
  · unfold stepUpload
    dsimp only
    rw [hquery, if_pos]
    intro chunk' hchunk'
    rw [List.mem_singleton.mp hchunk', hsize]
    exact ⟨by decide, Nat.le_refl _⟩
  · exact htimes

/-- A chunk that is not to be a delta is stored whole. -/
theorem storeChunk_missed {x : QueryEntry} (haddr : x.chunkAddr.deltaFlag = NO_DELTA)
    (hplain : x.deltaFlag = NO_DELTA) (s : Server) :
    storeChunk lz4Env x s =
      ({ x with
        deltaFlag := NO_DELTA
        chunkAddr := (ProcessSheUniqueChunk lz4Env x.chunkAddr x.chunk x.superfeature x.chunkHash
          s).2 }, none,
        (ProcessSheUniqueChunk lz4Env x.chunkAddr x.chunk x.superfeature x.chunkHash s).1) := by
  rcases @storeChunk_cases lz4Env x haddr s with hcase | ⟨hdelta, _⟩
  · exact hcase
  · rw [hplain] at hdelta
    exact absurd hdelta (by decide)

/-- The indexes once a full chunk has been registered. -/
theorem Growing.register (h : Growing entry n s) {fp : Fp} (hbase : plainFp plainBase ≠ fp)
    (hnew : ∃ m ≤ n + 1, fp = plainFp (fullChunk m)) (chunkAddr : RecipeEntry) :
    AList.lookup (plainFp plainBase) (s.indexObj.insert fp chunkAddr) = some entry ∧
      (Table.vec (Table.push (s.sfObj 0) (sfKey (FixedBytes.fill 96 0) 0) fp)
        (sfKey (FixedBytes.fill 96 0) 0)).head? = some (plainFp plainBase) ∧
      ∀ fp' ∈ (s.indexObj.insert fp chunkAddr).keys,
        fp' = plainFp plainBase ∨ ∃ m ≤ n + 1, fp' = plainFp (fullChunk m) := by
  refine ⟨?_, ?_, ?_⟩
  · rw [Table.lookup_insert_ite, if_neg hbase]
    exact h.base
  · rw [Table.vec_push, if_pos rfl, List.head?_append, h.posted]
    rfl
  · intro fp' hfp'
    rw [← AList.mem_keys, AList.mem_insert] at hfp'
    rcases hfp' with rfl | hmem
    · exact Or.inr hnew
    · refine (h.known fp' (AList.mem_keys.mp hmem)).imp_right ?_
      rintro ⟨m, hm, heq⟩
      exact ⟨m, Nat.le_succ_of_le hm, heq⟩

/-- One more full chunk, which is stored as it is. -/
theorem Growing.upload (h : Growing entry n s) (hn : n + 1 < 4096) :
    ∃ t, runs (step lz4Env) s (uploadOne (fullChunk (n + 1))) = some t ∧
      Growing entry (n + 1) t := by
  have htimes := h.times
  have hnone := h.fresh hn
  have hnever := neverDelta_full (n + 1)
  have hsize := fullChunk_length (n + 1)
  have hwords := fullChunk_words (n + 1)
  have hbase := plainFp_full_base (n + 1)
  have hnew : ∃ m ≤ n + 1, plainFp (fullChunk (n + 1)) = plainFp (fullChunk m) :=
    ⟨n + 1, Nat.le_refl _, rfl⟩
  generalize fullChunk (n + 1) = chunk at hnone hnever hsize hwords hbase hnew ⊢
  obtain ⟨x, hx⟩ : ∃ x, missedEntry entry chunk = x := ⟨_, rfl⟩
  obtain ⟨fp, hfp⟩ : ∃ fp, plainFp chunk = fp := ⟨_, rfl⟩
  have hchunkHash : x.chunkHash = fp := by rw [← hx, ← hfp]; rfl
  have haddr : x.chunkAddr.deltaFlag = NO_DELTA := by rw [← hx]; rfl
  have hplain : x.deltaFlag = NO_DELTA := by rw [← hx]; rfl
  have hlen : x.chunk.length = MAX_CHUNK_SIZE := by rw [← hx]; exact hsize
  have hdiffer : WordsDiffer x.chunk := by rw [← hx]; exact hwords
  -- the five steps
  let s₁ : Server := { s with
    phase := .uploading (.chunkLoop ⟨false, [{ x with deltaFlag := OUT_DELTA }], [], [], []⟩) }
  let s₂ : Server := { s with phase := .uploading (.loaded x ⟨false, [], [], [], []⟩) }
  have hstore := storeChunk_missed haddr hplain s₂
  have hunwritten : Unwritten entry n s₂ := h.container
  have hkept := @Unwritten.store _ _ _ hunwritten _ _ x.superfeature x.chunkHash haddr hlen hdiffer
  obtain ⟨q, o, times, size, hframe, _⟩ := ProcessSheUniqueChunk_frame lz4Env x.chunkAddr x.chunk
    x.superfeature x.chunkHash s₂
  have hle := storeChunk_times lz4Env x s₂
  rw [hstore] at hle
  obtain ⟨chunkAddr, hchunkAddr⟩ : ∃ chunkAddr, (ProcessSheUniqueChunk lz4Env x.chunkAddr x.chunk
    x.superfeature x.chunkHash s₂).2 = chunkAddr := ⟨_, rfl⟩
  rw [hframe] at hkept hle
  rw [hframe, hchunkAddr] at hstore
  obtain ⟨stored, hstored⟩ : ∃ stored, { x with
    deltaFlag := NO_DELTA
    chunkAddr := chunkAddr } = stored := ⟨_, rfl⟩
  rw [hstored] at hstore
  let s₃ : Server := { s₂ with
    inputMQ := q
    opened := o
    con_times := times
    iv := PickNewIV s₂.iv
    onlineBackupSize := size
    phase := .uploading (.chunkLoop ⟨false, [], [stored], [], []⟩) }
  let s₄ : Server := { s₃ with phase := .uploading (.answered ⟨false, [], [stored], [], []⟩) }
  let s₅ : Server := { InsertSF { s₄ with indexObj := s.indexObj.insert fp chunkAddr }
    (FixedBytes.fill 96 0) fp with phase := .uploading .ready }
  have htimes' : times < 2 ^ 31 := by
    change times ≤ s.con_times + 1 at hle
    omega
  have h₁ : step lz4Env s (.uploadChunk [chunk] (fun _ => false)
      fun _ => emptyEntry) = some s₁ := by
    apply step_uploadOne h.phase (by omega) hsize
    rw [queryBatch_lz4 h.forward h.base h.posted hnone, hx]
  have h₂ : step lz4Env s₁ .offlinedeltaTure = some s₂ := by
    apply step_of_upload rfl
    · have hload : OfflinedeltaTure false { x with deltaFlag := OUT_DELTA } s₁ =
          (x, none, s₁) := by
        have hmissed := @OfflinedeltaTure_missed s₁ { x with deltaFlag := OUT_DELTA }
          (by rw [← hx]; exact hnever) rfl h.cache (by rw [← hx]; exact h.file)
        have hself : { x with deltaFlag := NO_DELTA } = x := by rw [← hplain]
        exact hmissed.trans (by rw [hself])
      unfold stepUpload
      simp only [hload]
      rfl
    · exact show s.con_times < 2 ^ 31 by omega
  have h₃ : step lz4Env s₂ .storeChunk = some s₃ := by
    apply step_of_upload rfl
    · unfold stepUpload
      simp only [hstore]
      rfl
    · exact htimes'
  have h₄ : step lz4Env s₃ .endBatch = some s₄ := step_of_upload rfl rfl htimes'
  have h₅ : step lz4Env s₄ .updateOutIndex = some s₅ := by
    apply step_of_upload rfl
    · have hupdate : Ocall_UpdateOutIndex [stored] s₄ =
          InsertSF { s₄ with indexObj := s.indexObj.insert fp chunkAddr }
            (FixedBytes.fill 96 0) fp := by
        unfold Ocall_UpdateOutIndex
        rw [List.foldl_cons, List.foldl_nil, ← hstored]
        unfold updateOutIndexEntry
        dsimp only
        rw [if_pos ⟨rfl, by rw [← hx]; rfl⟩, hchunkHash]
        rw [← hx]
        rfl
      unfold stepUpload
      simp only [hupdate]
      rfl
    · exact htimes'
  rw [hfp] at hbase hnew
  obtain ⟨hentry, hposted, hknown⟩ := h.register hbase.symm hnew chunkAddr
  refine ⟨s₅, ?_, ⟨rfl, h.forward, hentry, hposted, h.cache, h.scratch, h.file, h.writer, hknown,
    ?_, hkept⟩⟩
  · unfold uploadOne
    rw [runs_cons]
    refine ⟨s₁, h₁, ?_⟩
    rw [runs_cons]
    refine ⟨s₂, h₂, ?_⟩
    rw [runs_cons]
    refine ⟨s₃, h₃, ?_⟩
    rw [runs_cons]
    refine ⟨s₄, h₄, ?_⟩
    rw [runs_cons]
    exact ⟨s₅, h₅, rfl⟩
  · change times ≤ s.con_times + 1 at hle
    change times ≤ n + 1 + 5
    omega

theorem fullUploads_growing : ∃ entry, ∀ n < 4096, ∃ s,
    runs (step lz4Env) (Server.start true false) (fullUploads n) = some s ∧
      Growing entry n s := by
  have heval : ((runs (step lz4Env) (Server.start true false) (fullUploads 0)).any fun s =>
      match s.indexObj.lookup (plainFp plainBase) with
      | none => false
      | some entry => decide
        (((s.phase = .uploading .ready ∧ s.Forward_Flag = true ∧
            (Table.vec (s.sfObj 0) (sfKey (FixedBytes.fill 96 0) 0)).head? =
              some (plainFp plainBase)) ∧
          (s.inCache = [] ∧ s.tmpOcallcontainer = [] ∧
            s.files.lookup (false, entry.containerName) = none) ∧
          s.writer.isNone = true ∧ s.indexObj.keys = [plainFp plainBase] ∧ s.con_times ≤ 5) ∧
          s.inputMQ.isEmpty = true ∧ (s.opened false).containerID = entry.containerName ∧
            (s.opened false).buf.length < MAX_CONTAINER_SIZE)) = true := by
    decide +kernel
  obtain ⟨s, hs, htest⟩ := (Option.any_eq_true _ _).mp heval
  cases hentry : s.indexObj.lookup (plainFp plainBase) with
  | none => simp [hentry] at htest
  | some entry =>
    simp only [hentry] at htest
    obtain ⟨⟨⟨hphase, hforward, hposted⟩, ⟨hcache, hscratch, hfile⟩, hwriter, hkeys, htimes⟩,
      hqueue, hname, hlt⟩ := of_decide_eq_true htest
    have hstart : Growing entry 0 s := by
      refine ⟨hphase, hforward, hentry, hposted, hcache, hscratch, hfile,
        Option.isNone_iff_eq_none.mp hwriter, ?_, htimes, ?_⟩
      · intro fp hfp
        rw [hkeys] at hfp
        exact Or.inl (List.mem_singleton.mp hfp)
      · refine Or.inl ⟨List.isEmpty_iff.mp hqueue, hname, ?_, hlt⟩
        rw [Nat.zero_mul]
        exact Nat.zero_le _
    refine ⟨entry, fun n => ?_⟩
    induction n with
    | zero => exact fun _ => ⟨s, hs, hstart⟩
    | succ n ih =>
      intro hn
      obtain ⟨t, ht, hgrowing⟩ := ih (by omega)
      obtain ⟨u, hu, hgrowing'⟩ := hgrowing.upload (by omega)
      refine ⟨u, ?_, hgrowing'⟩
      unfold fullUploads
      exact runs_append.mpr ⟨t, ht, hu⟩

/-- The writer thread opens the container of the base; the next chunk is to be encoded against an
empty file. -/
theorem Growing.loadUnwritten (h : Growing entry n s) (hn : n + 1 < 4096)
    (hfull : MAX_CONTAINER_SIZE ≤ n * MAX_CHUNK_SIZE) : ∃ t x b,
    runs (step lz4Env) s (.openFile :: loadOne (fullChunk (n + 1))) = some t ∧
      t.phase = .uploading (.loaded x b) ∧ x.deltaFlag = DELTA ∧ x.containerbuffer = [] := by
  have htimes := h.times
  obtain ⟨c, inputMQ, hqueue, hpath⟩ : ∃ c inputMQ, s.inputMQ = c :: inputMQ ∧
      c.path = (false, entry.containerName) := by
    rcases h.container with ⟨_, _, hle, hlt⟩ | hopen
    · omega
    · exact hopen
  have hnone := h.fresh hn
  have hnever' := neverDelta_full (n + 1)
  have hsize := fullChunk_length (n + 1)
  generalize fullChunk (n + 1) = chunk at hnone hnever' hsize ⊢
  obtain ⟨x, hx⟩ : ∃ x, missedEntry entry chunk = x := ⟨_, rfl⟩
  let s₁ : Server := { s with
    inputMQ := inputMQ
    writer := some (c, 0)
    files := s.files.insert c.path [] }
  let s₂ : Server := { s₁ with
    phase := .uploading (.chunkLoop ⟨false, [{ x with deltaFlag := OUT_DELTA }], [], [], []⟩) }
  have htimes' : s.con_times < 2 ^ 31 := by omega
  have h₁ : step lz4Env s .openFile = some s₁ := by
    unfold step stepAny
    have hnone : stepUpload lz4Env s .ready .openFile = none := rfl
    have hsome : stepWriter s .openFile = some s₁ := by
      unfold stepWriter
      simp only [h.writer, hqueue]
      rfl
    simp only [h.phase, hnone, hsome, Option.none_or]
    exact if_pos (decide_eq_true htimes')
  have hphase : s₁.phase = .uploading .ready := h.phase
  have h₂ : step lz4Env s₁ (.uploadChunk [chunk] (fun _ => false)
      fun _ => emptyEntry) = some s₂ := by
    apply step_uploadOne hphase htimes' hsize
    rw [← hx]
    exact queryBatch_lz4 h.forward h.base h.posted hnone
  have hnever : neverDelta x.inHash = false := by rw [← hx]; exact hnever'
  have hmiss : ReadFromCache x.basechunkAddr.containerName s₂ = none := by
    unfold ReadFromCache
    rw [show s₂.inCache = [] from h.cache]
    rfl
  have hload : Ocall_getRefContainer x.basechunkAddr.containerName s₂ =
      some (readContainer s₂ []) := by
    have hfile : s₂.files.lookup (false, x.basechunkAddr.containerName) = some [] := by
      change AList.lookup _ (s.files.insert c.path []) = _
      rw [hpath, ← hx]
      exact AList.lookup_insert s.files
    unfold Ocall_getRefContainer
    rw [hfile, Option.map_some]
  have hread : (readContainer s₂ []).tmpOcallcontainer = [] := by
    change memcpy s.tmpOcallcontainer 0 [] = []
    rw [h.scratch]
    rfl
  let y : QueryEntry := { x with
    containerbuffer := (readContainer s₂ []).tmpOcallcontainer
    chunkAddr := { x.chunkAddr with basechunkHash := x.basechunkHash }
    deltaFlag := DELTA }
  let s₃ : Server := { InsertToCache_Offline x.basechunkAddr.containerName
      (readContainer s₂ []).tmpOcallcontainer (readContainer s₂ []) with
    phase := .uploading (.loaded y ⟨false, [], [], [], []⟩) }
  have h₃ : step lz4Env s₂ .offlinedeltaTure = some s₃ := by
    apply step_of_upload rfl
    · have hloaded : OfflinedeltaTure false { x with deltaFlag := OUT_DELTA } s₂ =
          (y, none, InsertToCache_Offline x.basechunkAddr.containerName
            (readContainer s₂ []).tmpOcallcontainer (readContainer s₂ [])) := by
        unfold OfflinedeltaTure
        simp only [hnever, hmiss, hload]
        rfl
      unfold stepUpload
      simp only [hloaded]
      rfl
    · exact htimes'
  refine ⟨s₃, y, ⟨false, [], [], [], []⟩, ?_, rfl, rfl, hread⟩
  unfold loadOne
  rw [runs_cons]
  refine ⟨s₁, h₁, ?_⟩
  rw [runs_cons]
  refine ⟨s₂, h₂, ?_⟩
  rw [runs_cons]
  exact ⟨s₃, h₃, rfl⟩

end Growth

/-- A base with 256 chunks of the maximal size fills a container, which the writer thread opens
before the next chunk asks for the base: the chunk is encoded against nothing. -/
theorem base_unwritten : ∃ s,
    runs (step lz4Env) (Server.start true false)
      (fullUploads 256 ++ .openFile :: loadOne (fullChunk 257)) = some s ∧ ¬BaseComplete s := by
  obtain ⟨entry, hruns⟩ := fullUploads_growing
  obtain ⟨s, hs, hgrowing⟩ := hruns 256 (by decide)
  obtain ⟨t, x, b, ht, hphase, hdelta, hempty⟩ := hgrowing.loadUnwritten (by decide) (by decide)
  refine ⟨t, runs_append.mpr ⟨s, hs, ht⟩, fun hcomplete => ?_⟩
  obtain ⟨_, body, _, hle, hbytes⟩ := hcomplete x b hphase hdelta
  have hlen : (recordBytes body x.basechunkAddr).length =
      x.basechunkAddr.length.toNat + RECORD_OVERHEAD := slice_length_of_le hle
  rw [← hbytes, hempty] at hlen
  unfold recordBytes slice at hlen
  rw [List.drop_nil, List.take_nil, List.length_nil] at hlen
  have hpos : 0 < RECORD_OVERHEAD := by decide
  omega

end ShieldReduce.Prototype
