import ShieldReduce.Prototype.Walks

/-!
# The storage of an upload

Records and entries through the operations of an upload session: opening containers, saving a
chunk, handing a full container to the writer, and the end of the session.
-/

namespace ShieldReduce.Prototype
open Lib Store EDelta

/-- What the in-enclave buffers of an upload hold. -/
def uploadOpens (s : Server) (p : Path) : Option Bytes :=
  if (s.opened p.1).containerID = p.2 then some (s.opened p.1).buf else none

structure Stores (env : EnclaveEnv) (E : Fp → RecipeEntry → Prop) (opens : Path → Option Bytes)
    (s : Server) (R : Records) : Prop where
  holds : Holds env s.writer s.inputMQ opens s.files s.con_times R
  indexed : Indexed E s.cold_map s.con_times R

/-- No record is lost. -/
def Grows (R R' : Records) : Prop :=
  ∀ p rs, R p = some rs → ∃ more, R' p = some (rs ++ more)

/-- The record `r` is in its container. -/
def Recorded (R : Records) (r : ChunkRecord) : Prop := ∃ rs, R (pathOf r.entry) = some rs ∧ r ∈ rs

/-- `new` has been written, to open containers; everything else is as before. -/
structure Added (opens : Path → Option Bytes) (R R' : Records) (new : List ChunkRecord) : Prop where
  grows : Grows R R'
  keeps : ∀ p rs, R p = some rs → opens p = none → R' p = some rs
  recorded : ∀ r ∈ new, Recorded R' r
  only : ∀ p rs r, R' p = some rs → r ∈ rs → (∃ rs', R p = some rs' ∧ r ∈ rs') ∨ r ∈ new

section Added
variable {R R' R'' : Records} {opens opens' : Path → Option Bytes} {new new' : List ChunkRecord}

theorem Grows.refl (R : Records) : Grows R R := fun p rs h => ⟨[], by rw [List.append_nil, h]⟩

theorem Grows.trans (h : Grows R R') (h' : Grows R' R'') : Grows R R'' := by
  intro p rs hrs
  obtain ⟨more, hmore⟩ := h p rs hrs
  obtain ⟨more', hmore'⟩ := h' p _ hmore
  exact ⟨more ++ more', by rw [hmore', List.append_assoc]⟩

theorem Grows.recorded (h : Grows R R') {r : ChunkRecord} (hr : Recorded R r) : Recorded R' r := by
  obtain ⟨rs, hrs, hmem⟩ := hr
  obtain ⟨more, hmore⟩ := h _ rs hrs
  exact ⟨rs ++ more, hmore, List.mem_append_left more hmem⟩

theorem Grows.ne_none (h : Grows R R') {p : Path} (hp : R p ≠ none) : R' p ≠ none := by
  obtain ⟨rs, hrs⟩ := Option.ne_none_iff_exists'.mp hp
  obtain ⟨more, hmore⟩ := h _ rs hrs
  rw [hmore]
  exact Option.some_ne_none _

/-- One after the other, where what the first closes has been open and what it opens is new. -/
theorem Added.trans (h : Added opens R R' new) (h' : Added opens' R' R'' new')
    (hopens : ∀ p rs, R p = some rs → opens p = none → opens' p = none) :
    Added opens R R'' (new ++ new') := by
  refine ⟨h.grows.trans h'.grows, ?_, ?_, ?_⟩
  · intro p rs hp ho
    exact h'.keeps p rs (h.keeps p rs hp ho) (hopens p rs hp ho)
  · intro r hr
    rcases List.mem_append.mp hr with hr | hr
    · exact h'.grows.recorded (h.recorded r hr)
    · exact h'.recorded r hr
  · intro p rs r hp hr
    rcases h'.only p rs r hp hr with ⟨rs', hp', hr'⟩ | hr'
    · rcases h.only p rs' r hp' hr' with hold | hnew
      · exact Or.inl hold
      · exact Or.inr (List.mem_append_left new' hnew)
    · exact Or.inr (List.mem_append_right new hr')

/-- A new empty container. -/
theorem added_open {p : Path} (hp : R p = none) :
    Added opens R (Function.update R p (some [])) [] := by
  have hne : ∀ {q rs}, R q = some rs → q ≠ p := by
    rintro q rs hq rfl
    rw [hp] at hq
    simp at hq
  refine ⟨?_, ?_, by simp, ?_⟩
  · intro q rs hq
    exact ⟨[], by rw [Function.update_of_ne (hne hq), hq, List.append_nil]⟩
  · intro q rs hq _
    rw [Function.update_of_ne (hne hq), hq]
  · intro q rs r hq hr
    by_cases hqp : q = p
    · rw [hqp, Function.update_self, Option.some.injEq] at hq
      rw [← hq] at hr
      simp at hr
    · rw [Function.update_of_ne hqp] at hq
      exact Or.inl ⟨rs, hq, hr⟩

/-- A record behind the last one of an open container. -/
theorem added_append {r : ChunkRecord} {rs : List ChunkRecord} (hp : R (pathOf r.entry) = some rs)
    (ho : opens (pathOf r.entry) ≠ none) :
    Added opens R (Function.update R (pathOf r.entry) (some (rs ++ [r]))) [r] := by
  refine ⟨?_, ?_, ?_, ?_⟩
  · intro q old hq
    by_cases hqp : q = pathOf r.entry
    · subst hqp
      rw [hp, Option.some.injEq] at hq
      rw [Function.update_self, hq]
      exact ⟨[r], rfl⟩
    · rw [Function.update_of_ne hqp]
      exact ⟨[], by rw [hq, List.append_nil]⟩
  · intro q old hq hopen
    have hqp : q ≠ pathOf r.entry := by
      rintro rfl
      exact ho hopen
    rw [Function.update_of_ne hqp, hq]
  · intro r' hr'
    rw [List.mem_singleton.mp hr']
    exact ⟨rs ++ [r], Function.update_self .., by simp⟩
  · intro q new r' hq hr'
    by_cases hqp : q = pathOf r.entry
    · subst hqp
      rw [Function.update_self, Option.some.injEq] at hq
      rw [← hq] at hr'
      rcases List.mem_append.mp hr' with hr' | hr'
      · exact Or.inl ⟨rs, hp, hr'⟩
      · exact Or.inr hr'
    · rw [Function.update_of_ne hqp] at hq
      exact Or.inl ⟨new, hq, hr'⟩

end Added

section Upload
variable {env : EnclaveEnv} {E : Fp → RecipeEntry → Prop} {s : Server} {R : Records}

theorem uploadOpens_self (s : Server) (d : Bool) :
    uploadOpens s (d, (s.opened d).containerID) = some (s.opened d).buf := if_pos rfl

/-- Another buffer in the place of the one of the directory `d`. -/
theorem uploadOpens_update {s' : Server} {d : Bool} {c : OpenContainer}
    (hs' : s'.opened = Function.update s.opened d c) :
    uploadOpens s' = Function.update
      (Function.update (uploadOpens s) (d, (s.opened d).containerID) none)
      (d, c.containerID) (some c.buf) := by
  funext p
  unfold uploadOpens
  rw [hs']
  by_cases hd : p.1 = d
  · have hp : p = (d, p.2) := Prod.ext hd rfl
    rw [hd, Function.update_self]
    by_cases hn : c.containerID = p.2
    · rw [if_pos hn, hp, ← hn, Function.update_self]
    · have hne : p ≠ (d, c.containerID) := fun heq => hn (congrArg Prod.snd heq).symm
      rw [if_neg hn, Function.update_of_ne hne]
      by_cases ho : p = (d, (s.opened d).containerID)
      · rw [ho, Function.update_self]
      · rw [Function.update_of_ne ho, hd, if_neg]
        intro heq
        exact ho (Prod.ext hd heq.symm)
  · have hne : ∀ name, p ≠ (d, name) := fun name heq => hd (congrArg Prod.fst heq)
    rw [Function.update_of_ne hd, Function.update_of_ne (hne _), Function.update_of_ne (hne _)]

/-- A full container goes to the writer, and the next one is opened. -/
def flushed (d : Bool) (s : Server) : Server :=
  { s with
    inputMQ := s.inputMQ ++ [⟨(s.opened d).containerID, d, (s.opened d).buf⟩]
    opened := Function.update s.opened d ⟨CreateUUID s.con_times, [], []⟩
    con_times := s.con_times + 1 }

theorem Stores.flush (h : Stores env E (uploadOpens s) s R) (htimes : s.con_times < 2 ^ 31)
    (d : Bool) :
    Stores env E (uploadOpens (flushed d s)) (flushed d s)
      (Function.update R (d, CreateUUID s.con_times) (some [])) := by
  have hopen := uploadOpens_self s d
  have hq := h.holds.enqueue (c := ⟨(s.opened d).containerID, d, (s.opened d).buf⟩) hopen
  have hnew := hq.openNew htimes d
  refine ⟨?_, h.indexed.draw h.holds.ok htimes d⟩
  rw [uploadOpens_update rfl]
  exact hnew

/-- A record goes behind the last one of an open container. -/
theorem Stores.append (h : Stores env E (uploadOpens s) s R) {d : Bool} {s' : Server}
    {r : ChunkRecord} (hname : r.entry.containerName = (s.opened d).containerID)
    (hoff : r.entry.offset = UInt32.ofNat (s.opened d).buf.length)
    (hlen : r.entry.length.toNat = r.content.length) (hok : RecordOk env d r)
    (hfits : recordFits r.content (s.opened d).buf.length) (hfresh : ∀ e, ¬E r.fp e)
    (hs' : s' = { s with
      opened := Function.update s.opened d
        ⟨(s.opened d).containerID, (s.opened d).buf ++ r.toBytes, (s.opened d).body⟩ }) :
    ∃ R', Stores env (fun fp e => E fp e ∨ (fp = r.fp ∧ e = r.entry)) (uploadOpens s') s' R' ∧
      Added (uploadOpens s) R R' [r] := by
  have hopen := uploadOpens_self s d
  have hplace := h.holds.place (d, (s.opened d).containerID)
  rw [hopen] at hplace
  obtain ⟨_, _, _, rs, hrs, hbuf⟩ := hplace.of_open
  have hpath : pathOf r.entry = (d, (s.opened d).containerID) := by
    refine Prod.ext ?_ hname
    unfold pathOf
    rw [hok.kind]
    cases d <;> rfl
  unfold recordFits at hfits
  have hmax : MAX_CONTAINER_SIZE < 2 ^ 32 := by decide
  have hoff' : r.entry.offset.toNat = (s.opened d).buf.length := by
    rw [hoff, UInt32.toNat_ofNat', Nat.mod_eq_of_lt (by omega)]
  have hsize : (s.opened d).buf.length + r.size < MAX_CONTAINER_SIZE := by
    unfold ChunkRecord.size RECORD_OVERHEAD
    omega
  have hholds := h.holds.append (p := (d, (s.opened d).containerID)) hopen hrs hname hoff' hlen hok
    hsize
  have hwrite : Writable R rs r := ⟨by rw [hpath, hrs], by rw [hoff', hbuf]⟩
  have hkind : r.entry.deltaFlag = NO_DELTA ∨ r.entry.deltaFlag = DELTA := by
    rw [hok.kind]
    cases d
    · exact Or.inl rfl
    · exact Or.inr rfl
  have hindexed := h.indexed.add h.holds.ok hwrite hfresh hkind
    (by rw [hlen]; exact hok.content)
  refine ⟨Function.update R (pathOf r.entry) (some (rs ++ [r])), ⟨?_, ?_⟩, ?_⟩
  · subst hs'
    rw [uploadOpens_update rfl, hpath, Function.update_idem]
    exact hholds
  · subst hs'
    exact hindexed
  · apply added_append (by rw [hpath, hrs])
    rw [hpath, hopen]
    exact Option.some_ne_none _

theorem writeContainer_full (d : Bool) (s : Server) :
    writeContainer d { s with
      opened := Function.update s.opened d ⟨(s.opened d).containerID, [], (s.opened d).buf⟩ } =
      flushed d s := by
  unfold writeContainer flushed
  simp only [Function.update_self, Function.update_idem]

theorem flushed_fits {content : Bytes} (h : content.length ≤ MAX_CHUNK_SIZE) (d : Bool)
    (s : Server) : recordFits content ((flushed d s).opened d).buf.length := by
  have hbuf : ((flushed d s).opened d).buf = [] := by simp [flushed]
  have hsmall : CRYPTO_BLOCK_SIZE + MAX_CHUNK_SIZE + 0 + 4 * CHUNK_HASH_SIZE +
    RECIPE_ENTRY_SIZE < MAX_CONTAINER_SIZE := by decide
  unfold recordFits
  rw [hbuf, List.length_nil]
  omega

theorem saveChunk_full {d : Bool} {content : Bytes} (hcontent : content.length ≤ MAX_CHUNK_SIZE)
    (hfull : ¬recordFits content (s.opened d).buf.length) (chunkAddr : RecipeEntry)
    (sf : SuperFeature) (fp : Fp) :
    saveChunk d content chunkAddr sf fp s = saveChunk d content chunkAddr sf fp (flushed d s) := by
  unfold saveChunk
  rw [if_neg hfull, if_pos (flushed_fits hcontent d s), writeContainer_full]

/-- Saving a chunk adds its record and its entry. -/
theorem saveChunk_stores (h : Stores env E (uploadOpens s) s R) {d : Bool} {content : Bytes}
    {chunkAddr : RecipeEntry} {sf : SuperFeature} {fp : Fp}
    (htimes : s.con_times < 2 ^ 31)
    (hlen : chunkAddr.length.toNat = content.length)
    (hok : ∀ e, e.deltaFlag = chunkAddr.deltaFlag → RecordOk env d ⟨e, fp, sf, content, s.iv⟩)
    (hfresh : ∀ e, ¬E fp e) :
    ∃ R', Stores env
        (fun f e => E f e ∨ (f = fp ∧ e = (saveChunk d content chunkAddr sf fp s).2))
        (uploadOpens (saveChunk d content chunkAddr sf fp s).1)
        (saveChunk d content chunkAddr sf fp s).1 R' ∧
      Added (uploadOpens s) R R' [⟨(saveChunk d content chunkAddr sf fp s).2, fp, sf, content, s.iv⟩] := by
  have happend : ∀ {s : Server} {R : Records}, Stores env E (uploadOpens s) s R →
      (∀ e, e.deltaFlag = chunkAddr.deltaFlag → RecordOk env d ⟨e, fp, sf, content, s.iv⟩) →
      recordFits content (s.opened d).buf.length →
      ∃ R', Stores env
          (fun f e => E f e ∨ (f = fp ∧ e = (saveChunk d content chunkAddr sf fp s).2))
          (uploadOpens (saveChunk d content chunkAddr sf fp s).1)
          (saveChunk d content chunkAddr sf fp s).1 R' ∧
        Added (uploadOpens s) R R'
          [⟨(saveChunk d content chunkAddr sf fp s).2, fp, sf, content, s.iv⟩] := by
    intro s R h hok hfits
    unfold saveChunk
    rw [if_pos hfits]
    exact h.append (d := d) (r := ⟨{ chunkAddr with
      offset := UInt32.ofNat (s.opened d).buf.length
      containerName := (s.opened d).containerID }, fp, sf, content, s.iv⟩)
      rfl rfl hlen (hok _ rfl) hfits hfresh rfl
  by_cases hfits : recordFits content (s.opened d).buf.length
  · exact happend h hok hfits
  · have hcontent := (hok chunkAddr rfl).content
    have hfresh' := h.holds.ok.fresh htimes d
    obtain ⟨R', hstores, hadded⟩ := happend (h.flush htimes d) hok (flushed_fits hcontent d s)
    rw [saveChunk_full hcontent hfits]
    refine ⟨R', hstores, (added_open hfresh').trans hadded ?_⟩
    intro p rs hp hopen
    have hne : p ≠ (d, CreateUUID s.con_times) := by
      rintro rfl
      rw [hfresh'] at hp
      simp at hp
    rw [uploadOpens_update rfl, Function.update_of_ne hne]
    by_cases ho : p = (d, (s.opened d).containerID)
    · rw [ho, Function.update_self]
    · rw [Function.update_of_ne ho, hopen]

/-- Saving a chunk touches the queue, the buffers and the counter of names only. -/
theorem saveChunk_frame (d : Bool) (content : Bytes) (chunkAddr : RecipeEntry) (sf : SuperFeature)
    (fp : Fp) (s : Server) :
    ∃ q o t, (saveChunk d content chunkAddr sf fp s).1 =
        { s with
          inputMQ := q
          opened := o
          con_times := t } ∧
      s.con_times ≤ t ∧ ∀ d', (s.opened d').body = [] → (o d').body = [] := by
  by_cases hfits : recordFits content (s.opened d).buf.length
  · unfold saveChunk
    rw [if_pos hfits]
    refine ⟨s.inputMQ, _, s.con_times, rfl, Nat.le_refl _, ?_⟩
    intro d' hd'
    by_cases hd : d' = d
    · rw [hd, Function.update_self]
      rw [hd] at hd'
      exact hd'
    · rw [Function.update_of_ne hd]
      exact hd'
  · unfold saveChunk
    rw [if_neg hfits, writeContainer_full]
    have hbody : ((flushed d s).opened d).body = [] := by simp [flushed]
    refine ⟨_, _, s.con_times + 1, rfl, Nat.le_succ _, ?_⟩
    intro d' hd'
    by_cases hd : d' = d
    · rw [hd, Function.update_self]
      exact hbody
    · rw [Function.update_of_ne hd]
      change (Function.update s.opened d _ d').body = []
      rw [Function.update_of_ne hd]
      exact hd'

/-- A name drawn after the first `first` ones. -/
def DrawnSince (first times : Nat) (name : ContainerName) : Prop :=
  ∃ k, first ≤ k ∧ k < times ∧ name = CreateUUID k

theorem DrawnSince.mono {first times times' : Nat} {name : ContainerName}
    (h : DrawnSince first times name) (hle : times ≤ times') : DrawnSince first times' name := by
  obtain ⟨k, hfirst, hk, hname⟩ := h
  exact ⟨k, hfirst, by omega, hname⟩

/-- The saved record stands in an open container; containers are replaced by new ones. -/
theorem saveChunk_opened (d : Bool) (content : Bytes) (chunkAddr : RecipeEntry) (sf : SuperFeature)
    (fp : Fp) (s : Server) :
    ((saveChunk d content chunkAddr sf fp s).1.opened d).buf ≠ [] ∧
      ∀ {first}, first ≤ s.con_times →
        (∀ d', DrawnSince first s.con_times (s.opened d').containerID) →
        ∀ d', DrawnSince first (saveChunk d content chunkAddr sf fp s).1.con_times
          ((saveChunk d content chunkAddr sf fp s).1.opened d').containerID := by
  have hrecord : ∀ (buf : Bytes) (r : ChunkRecord), buf ++ r.toBytes ≠ [] := by
    intro buf r hnil
    have hlen := congrArg List.length hnil
    rw [List.length_append, ChunkRecord.toBytes_length, List.length_nil] at hlen
    unfold ChunkRecord.size RECORD_OVERHEAD RECIPE_ENTRY_SIZE at hlen
    omega
  by_cases hfits : recordFits content (s.opened d).buf.length
  · unfold saveChunk
    rw [if_pos hfits]
    dsimp only
    refine ⟨?_, ?_⟩
    · rw [Function.update_self]
      exact hrecord _ _
    · intro first _ hnames d'
      by_cases hd : d' = d
      · rw [hd, Function.update_self]
        exact hnames d
      · rw [Function.update_of_ne hd]
        exact hnames d'
  · unfold saveChunk
    rw [if_neg hfits, writeContainer_full]
    dsimp only
    refine ⟨?_, ?_⟩
    · rw [Function.update_self]
      exact hrecord _ _
    · intro first hfirst hnames d'
      by_cases hd : d' = d
      · rw [hd, Function.update_self]
        exact ⟨s.con_times, hfirst, Nat.lt_succ_self _, by simp [flushed]⟩
      · have hother : (flushed d s).opened d' = s.opened d' := Function.update_of_ne hd _ _
        rw [Function.update_of_ne hd, hother]
        exact (hnames d').mono (Nat.le_succ _)

end Upload

section Chunk
variable {env : EnclaveEnv} {E : Fp → RecipeEntry → Prop} {s : Server} {R : Records}

/-- The content `ProcessSheUniqueChunk` stores. -/
def uniqueCipher (env : EnclaveEnv) (chunkAddr : RecipeEntry) (chunkBuffer : Bytes) (s : Server) :
    Bytes :=
  env.EncryptWithKeyIV (PickNewIV s.iv) (uniqueContent env chunkAddr.deltaFlag chunkBuffer)

/-- The entry it starts from. -/
def uniqueAddr (chunkAddr : RecipeEntry) (length : Nat) (sf : SuperFeature) : RecipeEntry :=
  { chunkAddr with
    length := UInt32.ofNat length
    superfeature := if chunkAddr.deltaFlag = NO_DELTA then sf else chunkAddr.superfeature }

theorem ProcessSheUniqueChunk_eq (env : EnclaveEnv) (chunkAddr : RecipeEntry)
    (chunkBuffer : Bytes) (sf : SuperFeature) (fp : Fp) (s : Server) :
    ∃ n, ProcessSheUniqueChunk env chunkAddr chunkBuffer sf fp s =
      saveChunk (chunkAddr.deltaFlag ≠ NO_DELTA) (uniqueCipher env chunkAddr chunkBuffer s)
        (uniqueAddr chunkAddr (uniqueCipher env chunkAddr chunkBuffer s).length sf) sf fp
        { s with
          iv := PickNewIV s.iv
          onlineBackupSize := n } := by
  refine ⟨s.onlineBackupSize +
    UInt64.ofNat (uniqueContent env chunkAddr.deltaFlag chunkBuffer).length, ?_⟩
  unfold ProcessSheUniqueChunk SavebaseChunk SavedeltaChunk uniqueAddr
  by_cases hflag : chunkAddr.deltaFlag = NO_DELTA
  · have hd : decide (chunkAddr.deltaFlag ≠ NO_DELTA) = false := by simp [hflag]
    rw [hd]
    dsimp only
    rw [if_pos hflag, if_pos hflag]
    rfl
  · have hd : decide (chunkAddr.deltaFlag ≠ NO_DELTA) = true := by simp [hflag]
    rw [hd]
    dsimp only
    rw [if_neg hflag, if_neg hflag]
    rfl

/-- The record that `ProcessSheUniqueChunk` writes for the entry it returns. -/
def uniqueRecord (env : EnclaveEnv) (chunkAddr : RecipeEntry) (chunkBuffer : Bytes)
    (sf : SuperFeature) (fp : Fp) (s : Server) : ChunkRecord where
  entry := (ProcessSheUniqueChunk env chunkAddr chunkBuffer sf fp s).2
  fp := fp
  sf := sf
  content := uniqueCipher env chunkAddr chunkBuffer s
  iv := PickNewIV s.iv

/-- What `ProcessSheUniqueChunk` leaves of the server. -/
theorem ProcessSheUniqueChunk_frame (env : EnclaveEnv) (chunkAddr : RecipeEntry)
    (chunkBuffer : Bytes) (sf : SuperFeature) (fp : Fp) (s : Server) :
    ∃ q o t n, (ProcessSheUniqueChunk env chunkAddr chunkBuffer sf fp s).1 =
        { s with
          inputMQ := q
          opened := o
          con_times := t
          iv := PickNewIV s.iv
          onlineBackupSize := n } ∧
      s.con_times ≤ t ∧ ∀ d, (s.opened d).body = [] → (o d).body = [] := by
  obtain ⟨n, heq⟩ := ProcessSheUniqueChunk_eq env chunkAddr chunkBuffer sf fp s
  rw [heq]
  obtain ⟨q, o, t, hs', ht, hbody⟩ := saveChunk_frame (chunkAddr.deltaFlag ≠ NO_DELTA)
    (uniqueCipher env chunkAddr chunkBuffer s)
    (uniqueAddr chunkAddr (uniqueCipher env chunkAddr chunkBuffer s).length sf) sf fp
    { s with
      iv := PickNewIV s.iv
      onlineBackupSize := n }
  exact ⟨q, o, t, n, hs', ht, hbody⟩

theorem ProcessSheUniqueChunk_opened (env : EnclaveEnv) (chunkAddr : RecipeEntry)
    (chunkBuffer : Bytes) (sf : SuperFeature) (fp : Fp) (s : Server) :
    (∃ d, ((ProcessSheUniqueChunk env chunkAddr chunkBuffer sf fp s).1.opened d).buf ≠ []) ∧
      ∀ {first}, first ≤ s.con_times →
        (∀ d, DrawnSince first s.con_times (s.opened d).containerID) →
        ∀ d, DrawnSince first (ProcessSheUniqueChunk env chunkAddr chunkBuffer sf fp s).1.con_times
          ((ProcessSheUniqueChunk env chunkAddr chunkBuffer sf fp s).1.opened d).containerID := by
  obtain ⟨n, heq⟩ := ProcessSheUniqueChunk_eq env chunkAddr chunkBuffer sf fp s
  rw [heq]
  obtain ⟨hbuf, hnames⟩ := saveChunk_opened (chunkAddr.deltaFlag ≠ NO_DELTA)
    (uniqueCipher env chunkAddr chunkBuffer s)
    (uniqueAddr chunkAddr (uniqueCipher env chunkAddr chunkBuffer s).length sf) sf fp
    { s with
      iv := PickNewIV s.iv
      onlineBackupSize := n }
  exact ⟨⟨_, hbuf⟩, hnames⟩

/-- The chunk loop stores every chunk with `ProcessSheUniqueChunk`. -/
theorem storeChunk_server (env : EnclaveEnv) (x : QueryEntry) (s : Server) : ∃ a buf,
    (storeChunk env x s).2.2 =
      (ProcessSheUniqueChunk env a buf x.superfeature x.chunkHash s).1 := by
  unfold storeChunk ProcessDeltachunk
  dsimp only
  split
  · dsimp only
    split
    · exact ⟨_, _, rfl⟩
    · exact ⟨_, _, rfl⟩
  · dsimp only
    split
    · exact ⟨_, _, rfl⟩
    · exact ⟨_, _, rfl⟩

/-- What the chunk loop leaves of the server when it stores a chunk. -/
theorem storeChunk_frame (env : EnclaveEnv) (x : QueryEntry) (s : Server) :
    ∃ q o t n, (storeChunk env x s).2.2 =
        { s with
          inputMQ := q
          opened := o
          con_times := t
          iv := PickNewIV s.iv
          onlineBackupSize := n } ∧
      s.con_times ≤ t := by
  obtain ⟨a, buf, heq⟩ := storeChunk_server env x s
  obtain ⟨q, o, t, n, hs', ht, _⟩ := ProcessSheUniqueChunk_frame env a buf x.superfeature
    x.chunkHash s
  exact ⟨q, o, t, n, heq.trans hs', ht⟩

theorem ProcessSheUniqueChunk_addr (env : EnclaveEnv) (chunkAddr : RecipeEntry)
    (chunkBuffer : Bytes) (sf : SuperFeature) (fp : Fp) (s : Server) :
    (ProcessSheUniqueChunk env chunkAddr chunkBuffer sf fp s).2.deltaFlag = chunkAddr.deltaFlag ∧
      (ProcessSheUniqueChunk env chunkAddr chunkBuffer sf fp s).2.basechunkHash =
        chunkAddr.basechunkHash ∧
      (chunkAddr.deltaFlag = NO_DELTA →
        (ProcessSheUniqueChunk env chunkAddr chunkBuffer sf fp s).2.superfeature = sf) := by
  obtain ⟨n, heq⟩ := ProcessSheUniqueChunk_eq env chunkAddr chunkBuffer sf fp s
  rw [heq]
  refine ⟨rfl, rfl, fun hflag => ?_⟩
  change (if chunkAddr.deltaFlag = NO_DELTA then sf else chunkAddr.superfeature) = sf
  exact if_pos hflag

theorem uniqueCipher_length {chunkAddr : RecipeEntry} {chunkBuffer : Bytes}
    (hpos : 1 ≤ chunkBuffer.length) (hmax : chunkBuffer.length ≤ MAX_CHUNK_SIZE) (s : Server) :
    (uniqueCipher env chunkAddr chunkBuffer s).length ≤ MAX_CHUNK_SIZE ∧
      (UInt32.ofNat (uniqueCipher env chunkAddr chunkBuffer s).length).toNat =
        (uniqueCipher env chunkAddr chunkBuffer s).length := by
  have hcontent := (@uniqueContent_length env chunkAddr.deltaFlag chunkBuffer hpos).2
  have hle : (uniqueCipher env chunkAddr chunkBuffer s).length ≤ MAX_CHUNK_SIZE := by
    unfold uniqueCipher
    rw [env.EncryptWithKeyIV_length]
    omega
  have hsmall : MAX_CHUNK_SIZE < 2 ^ 32 := by decide
  exact ⟨hle, by rw [UInt32.toNat_ofNat', Nat.mod_eq_of_lt (by omega)]⟩

/-- Storing a chunk adds its record and its entry. -/
theorem ProcessSheUniqueChunk_stores (h : Stores env E (uploadOpens s) s R)
    {chunkAddr : RecipeEntry} {chunkBuffer : Bytes} {sf : SuperFeature} {fp : Fp}
    (htimes : s.con_times < 2 ^ 31)
    (hflag : chunkAddr.deltaFlag = NO_DELTA ∨ chunkAddr.deltaFlag = DELTA)
    (hpos : 1 ≤ chunkBuffer.length) (hmax : chunkBuffer.length ≤ MAX_CHUNK_SIZE)
    (hdelta : chunkAddr.deltaFlag = DELTA → ∀ base,
      (EDeltaDecode chunkBuffer base).length ≤ MAX_CHUNK_SIZE)
    (hfresh : ∀ e, ¬E fp e) :
    ∃ R', Stores env
        (fun f e => E f e ∨
          (f = fp ∧ e = (ProcessSheUniqueChunk env chunkAddr chunkBuffer sf fp s).2))
        (uploadOpens (ProcessSheUniqueChunk env chunkAddr chunkBuffer sf fp s).1)
        (ProcessSheUniqueChunk env chunkAddr chunkBuffer sf fp s).1 R' ∧
      Added (uploadOpens s) R R' [uniqueRecord env chunkAddr chunkBuffer sf fp s] := by
  obtain ⟨hcipher, hlen⟩ := @uniqueCipher_length env chunkAddr chunkBuffer hpos hmax s
  have hne : DELTA ≠ NO_DELTA := by decide
  have hok : ∀ e, e.deltaFlag = chunkAddr.deltaFlag →
      RecordOk env (chunkAddr.deltaFlag ≠ NO_DELTA)
        ⟨e, fp, sf, uniqueCipher env chunkAddr chunkBuffer s, PickNewIV s.iv⟩ := by
    intro e he
    refine ⟨?_, hcipher, ?_⟩
    · rcases hflag with hflag | hflag
      · simp [he, hflag]
      · simp [he, hflag, hne]
    · intro hd base
      have hflag := hflag.resolve_left (of_decide_eq_true hd)
      have hraw : uniqueContent env DELTA chunkBuffer = chunkBuffer := if_neg hne
      unfold uniqueCipher
      rw [env.Decryption_Encrypt, hflag, hraw]
      exact hdelta hflag base
  obtain ⟨n, heq⟩ := ProcessSheUniqueChunk_eq env chunkAddr chunkBuffer sf fp s
  unfold uniqueRecord
  rw [heq]
  have hs : Stores env E (uploadOpens s)
      { s with
        iv := PickNewIV s.iv
        onlineBackupSize := n } R := ⟨h.holds, h.indexed⟩
  exact saveChunk_stores hs htimes hlen hok hfresh

end Chunk

end ShieldReduce.Prototype
