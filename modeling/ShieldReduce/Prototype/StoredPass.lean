import ShieldReduce.Prototype.DeltaPass
import ShieldReduce.Prototype.Stored

/-!
# The storage of an offline pass

Records and entries through `Easy_update`: reading a dependent, writing its new record to the hot
container, and handing the extent of its old one to compaction.
-/

namespace ShieldReduce.Prototype
open Lib Store EDelta

/-- What the hot container holds. -/
def hotOpens (s : Server) (p : Path) : Option Bytes :=
  if p = (true, s.hot_container.containerID) then some s.hot_container.buf else none

section Hot
variable {env : EnclaveEnv} {E : Fp → RecipeEntry → Prop} {s : Server} {R : Records}

theorem hotOpens_self (s : Server) :
    hotOpens s (true, s.hot_container.containerID) = some s.hot_container.buf := if_pos rfl

theorem hotOpens_update {s' : Server} :
    hotOpens s' = Function.update
      (Function.update (hotOpens s) (true, s.hot_container.containerID) none)
      (true, s'.hot_container.containerID) (some s'.hot_container.buf) := by
  funext p
  by_cases hp : p = (true, s'.hot_container.containerID)
  · subst hp
    rw [Function.update_self]
    exact hotOpens_self s'
  · rw [Function.update_of_ne hp]
    by_cases ho : p = (true, s.hot_container.containerID)
    · rw [ho, Function.update_self]
      rw [ho] at hp
      exact if_neg hp
    · rw [Function.update_of_ne ho]
      exact (if_neg hp).trans (if_neg ho).symm

/-- A full hot container is written to its file, and the next one is opened. -/
def hotFlushed (s : Server) : Server :=
  { Ocall_SavehotContainer s with
    hot_container := ⟨CreateUUID s.con_times, [], []⟩
    con_times := s.con_times + 1 }

theorem Stores.hotFlush (h : Stores env E (hotOpens s) s R) (htimes : s.con_times < 2 ^ 31)
    (hwriter : s.writer = none) :
    Stores env E (hotOpens (hotFlushed s)) (hotFlushed s)
      (Function.update R (true, CreateUUID s.con_times) (some [])) := by
  have hholds := h.holds
  rw [hwriter] at hholds
  have hnew := (hholds.saveFile (hotOpens_self s)).openNew htimes true
  refine ⟨?_, h.indexed.draw h.holds.ok htimes true⟩
  rw [@hotOpens_update s]
  change Holds env s.writer _ _ _ _ _
  rw [hwriter]
  exact hnew

/-- A record goes behind the last one of the hot container, in the place of the record that `e` led
to. -/
theorem Stores.hotAppend (h : Stores env E (hotOpens s) s R) {r : ChunkRecord}
    (hname : r.entry.containerName = s.hot_container.containerID)
    (hoff : r.entry.offset = UInt32.ofNat s.hot_container.buf.length)
    (hlen : r.entry.length.toNat = r.content.length) (hok : RecordOk env true r)
    (hfits : recordFits r.content s.hot_container.buf.length) {e : RecipeEntry} (he : E r.fp e)
    (hold : R (pathOf e) ≠ none) {s' : Server}
    (hs' : s' = { s with
      hot_container := ⟨s.hot_container.containerID, s.hot_container.buf ++ r.toBytes,
        s.hot_container.body⟩
      cold_map := Table.push s.cold_map e.containerName (coldExtent e) }) :
    ∃ R', Stores env (fun fp e' => if fp = r.fp then e' = r.entry else E fp e') (hotOpens s') s' R' ∧
      Added (hotOpens s) R R' [r] := by
  have hopen := hotOpens_self s
  have hplace := h.holds.place (true, s.hot_container.containerID)
  rw [hopen] at hplace
  obtain ⟨_, _, _, rs, hrs, hbuf⟩ := hplace.of_open
  have hpath : pathOf r.entry = (true, s.hot_container.containerID) := by
    refine Prod.ext ?_ hname
    unfold pathOf
    rw [hok.kind]
    rfl
  unfold recordFits at hfits
  have hmax : MAX_CONTAINER_SIZE < 2 ^ 32 := by decide
  have hoff' : r.entry.offset.toNat = s.hot_container.buf.length := by
    rw [hoff, UInt32.toNat_ofNat', Nat.mod_eq_of_lt (by omega)]
  have hsize : s.hot_container.buf.length + r.size < MAX_CONTAINER_SIZE := by
    unfold ChunkRecord.size RECORD_OVERHEAD
    omega
  have hholds := h.holds.append (p := (true, s.hot_container.containerID)) hopen hrs hname hoff' hlen
    hok hsize
  have hwrite : Writable R rs r := ⟨by rw [hpath, hrs], by rw [hoff', hbuf]⟩
  obtain ⟨old, hold⟩ := Option.ne_none_iff_exists'.mp hold
  have hindexed := h.indexed.supersede h.holds.ok hwrite he hold (Or.inr hok.kind)
    (by rw [hlen]; exact hok.content)
  refine ⟨Function.update R (pathOf r.entry) (some (rs ++ [r])), ⟨?_, ?_⟩, ?_⟩
  · subst hs'
    rw [@hotOpens_update s, hpath, Function.update_idem]
    exact hholds
  · subst hs'
    exact hindexed
  · apply added_append (by rw [hpath, hrs])
    rw [hpath, hopen]
    exact Option.some_ne_none _

theorem hotFlushed_fits {content : Bytes} (h : content.length ≤ MAX_CHUNK_SIZE) (s : Server) :
    recordFits content (hotFlushed s).hot_container.buf.length := by
  have hsmall : CRYPTO_BLOCK_SIZE + MAX_CHUNK_SIZE + 0 + 4 * CHUNK_HASH_SIZE +
    RECIPE_ENTRY_SIZE < MAX_CONTAINER_SIZE := by decide
  have hbuf : (hotFlushed s).hot_container.buf = [] := rfl
  unfold recordFits
  rw [hbuf, List.length_nil]
  omega

theorem InsertHot_container_full {content : Bytes} (hcontent : content.length ≤ MAX_CHUNK_SIZE)
    (hfull : ¬recordFits content s.hot_container.buf.length) (recipe : RecipeEntry) (fp : Fp)
    (sf : SuperFeature) (iv : IV) :
    InsertHot_container content recipe fp sf iv s =
      InsertHot_container content recipe fp sf iv (hotFlushed s) := by
  unfold InsertHot_container
  rw [if_neg hfull, if_pos (hotFlushed_fits hcontent s)]
  rfl

/-- The record that `storeHot` writes. -/
def hotRecord (env : EnclaveEnv) (newBase : Fp) (recipe : RecipeEntry) (new_delta : Bytes) (fp : Fp)
    (sf : SuperFeature) (iv : IV) (s : Server) : ChunkRecord where
  entry := (InsertHot_container (env.EncryptWithKeyIV iv new_delta)
    { recipe with
      length := UInt32.ofNat new_delta.length
      basechunkHash := newBase } fp sf iv s).2
  fp := fp
  sf := sf
  content := env.EncryptWithKeyIV iv new_delta
  iv := iv

theorem storeHot_indexObj (env : EnclaveEnv) (chunkHash newBase : Fp) (recipe : RecipeEntry)
    (new_delta : Bytes) (fp : Fp) (sf : SuperFeature) (iv : IV) (s : Server) :
    (storeHot env chunkHash newBase recipe new_delta fp sf iv s).indexObj =
      s.indexObj.insert chunkHash (hotRecord env newBase recipe new_delta fp sf iv s).entry := by
  obtain ⟨⟨f, h, t, hs, _⟩, _⟩ := InsertHot_container_frame (env.EncryptWithKeyIV iv new_delta)
    { recipe with
      length := UInt32.ofNat new_delta.length
      basechunkHash := newBase } fp sf iv s
  unfold storeHot hotRecord
  dsimp only
  rw [hs]
  rfl

/-- `storeHot` puts a record in the place of the one the chunk had. -/
theorem storeHot_stores (h : Stores env (Entry s.indexObj []) (hotOpens s) s R)
    (htimes : s.con_times < 2 ^ 31) (hwriter : s.writer = none) {chunkHash newBase : Fp}
    {recipe : RecipeEntry} (hrecipe : s.indexObj.lookup chunkHash = some recipe)
    (hold : R (pathOf recipe) ≠ none) {new_delta : Bytes} (sf : SuperFeature) (iv : IV)
    (hlen : new_delta.length ≤ MAX_CHUNK_SIZE)
    (hdecode : ∀ b, (EDeltaDecode new_delta b).length ≤ MAX_CHUNK_SIZE) :
    ∃ R', Stores env
        (Entry (storeHot env chunkHash newBase recipe new_delta chunkHash sf iv s).indexObj [])
        (hotOpens (storeHot env chunkHash newBase recipe new_delta chunkHash sf iv s))
        (storeHot env chunkHash newBase recipe new_delta chunkHash sf iv s) R' ∧
      Added (hotOpens s) R R' [hotRecord env newBase recipe new_delta chunkHash sf iv s] := by
  have hcipher : (env.EncryptWithKeyIV iv new_delta).length = new_delta.length :=
    env.EncryptWithKeyIV_length iv new_delta
  have hcontent : (env.EncryptWithKeyIV iv new_delta).length ≤ MAX_CHUNK_SIZE := by omega
  have hlength : (UInt32.ofNat new_delta.length).toNat = new_delta.length := by
    have hsmall : MAX_CHUNK_SIZE < 2 ^ 32 := by decide
    rw [UInt32.toNat_ofNat', Nat.mod_eq_of_lt (by omega)]
  have happend : ∀ {t : Server} {R : Records}, t.indexObj = s.indexObj →
      Stores env (Entry s.indexObj []) (hotOpens t) t R → R (pathOf recipe) ≠ none →
      recordFits (env.EncryptWithKeyIV iv new_delta) t.hot_container.buf.length →
      ∃ R', Stores env
          (Entry (storeHot env chunkHash newBase recipe new_delta chunkHash sf iv t).indexObj [])
          (hotOpens (storeHot env chunkHash newBase recipe new_delta chunkHash sf iv t))
          (storeHot env chunkHash newBase recipe new_delta chunkHash sf iv t) R' ∧
        Added (hotOpens t) R R' [hotRecord env newBase recipe new_delta chunkHash sf iv t] := by
    intro t R hidx h hold hfits
    have hentry : (hotRecord env newBase recipe new_delta chunkHash sf iv t).entry =
        { recipe with
          length := UInt32.ofNat new_delta.length
          basechunkHash := newBase
          offset := UInt32.ofNat t.hot_container.buf.length
          deltaFlag := DELTA
          containerName := t.hot_container.containerID } := by
      unfold hotRecord InsertHot_container
      rw [if_pos hfits]
    have hok : RecordOk env true (hotRecord env newBase recipe new_delta chunkHash sf iv t) := by
      refine ⟨by rw [hentry]; rfl, hcontent, fun _ b => ?_⟩
      change (EDeltaDecode (env.DecryptionWithKeyIV iv (env.EncryptWithKeyIV iv new_delta))
        b).length ≤ _
      rw [env.Decryption_Encrypt]
      exact hdecode b
    obtain ⟨R', hstores, hadded⟩ := h.hotAppend (by rw [hentry]) (by rw [hentry])
      (by rw [hentry]; exact hlength.trans hcipher.symm) hok hfits (Or.inl hrecipe) hold rfl
    have hE : Entry (storeHot env chunkHash newBase recipe new_delta chunkHash sf iv t).indexObj [] =
        fun fp e' => if fp = chunkHash then
          e' = (hotRecord env newBase recipe new_delta chunkHash sf iv t).entry
        else Entry s.indexObj [] fp e' := by
      funext fp e'
      refine propext ?_
      unfold Entry
      rw [storeHot_indexObj, hidx, Table.lookup_insert_ite]
      by_cases hfp : fp = chunkHash
      · rw [if_pos hfp, if_pos hfp]
        simp [eq_comm]
      · rw [if_neg hfp, if_neg hfp]
    have hhot : (InsertHot_container (env.EncryptWithKeyIV iv new_delta)
        { recipe with
          length := UInt32.ofNat new_delta.length
          basechunkHash := newBase } chunkHash sf iv t).1 =
        { t with hot_container := ⟨t.hot_container.containerID, t.hot_container.buf ++
          (hotRecord env newBase recipe new_delta chunkHash sf iv t).toBytes,
          t.hot_container.body⟩ } := by
      unfold hotRecord InsertHot_container
      rw [if_pos hfits]
    refine ⟨R', ?_, hadded⟩
    rw [hE]
    unfold storeHot
    dsimp only
    rw [hhot]
    exact ⟨hstores.holds, hstores.indexed⟩
  by_cases hfits : recordFits (env.EncryptWithKeyIV iv new_delta) s.hot_container.buf.length
  · exact happend rfl h hold hfits
  · have hfresh := h.holds.ok.fresh htimes true
    have hopenfresh : Added (hotOpens s) R _ [] := added_open hfresh
    have hstore : storeHot env chunkHash newBase recipe new_delta chunkHash sf iv s =
        storeHot env chunkHash newBase recipe new_delta chunkHash sf iv (hotFlushed s) := by
      unfold storeHot
      dsimp only
      rw [InsertHot_container_full hcontent hfits]
    have hrecord : hotRecord env newBase recipe new_delta chunkHash sf iv s =
        hotRecord env newBase recipe new_delta chunkHash sf iv (hotFlushed s) := by
      unfold hotRecord
      rw [InsertHot_container_full hcontent hfits]
    obtain ⟨R', hstores, hadded⟩ := @happend (hotFlushed s) _ rfl (h.hotFlush htimes hwriter)
      (hopenfresh.grows.ne_none hold) (hotFlushed_fits hcontent s)
    rw [hstore, hrecord]
    refine ⟨R', hstores, hopenfresh.trans hadded ?_⟩
    intro p rs hp ho
    have hne : p ≠ (true, CreateUUID s.con_times) := by
      rintro rfl
      rw [hfresh] at hp
      simp at hp
    unfold hotOpens
    exact if_neg hne

/-- The hot container's files are in `Delta-Containers/`. -/
theorem storeHot_files (env : EnclaveEnv) (chunkHash newBase : Fp) (recipe : RecipeEntry)
    (new_delta : Bytes) (fp : Fp) (sf : SuperFeature) (iv : IV) (s : Server) (name : ContainerName) :
    (storeHot env chunkHash newBase recipe new_delta fp sf iv s).files.lookup (false, name) =
      s.files.lookup (false, name) := by
  unfold storeHot InsertHot_container
  dsimp only
  split
  · rfl
  · change (s.files.insert (true, s.hot_container.containerID) _).lookup (false, name) = _
    rw [Table.lookup_insert_ite, if_neg (by simp)]

end Hot

section Read
variable {env : EnclaveEnv} {opens : Path → Option Bytes} {s s' : Server} {R R' R'' : Records}

/-- Reading the file that an index entry leads to finds the chunk's record. -/
theorem Stores.read (h : Stores env (Entry s.indexObj []) opens s R) (hwriter : s.writer = none)
    {fp : Fp} {e : RecipeEntry} (he : s.indexObj.lookup fp = some e) {body : Bytes}
    (hfile : s.files.lookup (pathOf e) = some body) :
    ∃ r, Recorded R r ∧ r.fp = fp ∧ r.entry = e ∧ RecordOk env (pathOf e).1 r ∧
      ∀ buf, StandsIn (memcpy buf 0 body) r := by
  have hholds := h.holds
  rw [hwriter] at hholds
  obtain ⟨rs, hrs, rfl, hpacked⟩ := hholds.file hfile
  obtain ⟨r, hr, hfp, hentry⟩ := h.indexed.entry (Or.inl he) hrs
  refine ⟨r, ⟨rs, by rw [hentry, hrs], hr⟩, hfp, hentry, hpacked.ok r hr, fun buf => ?_⟩
  rw [memcpy_zero]
  exact (Packed.standsIn ⟨rfl, hpacked.packed, Nat.le_of_lt hpacked.fits⟩ hr).append _

theorem StandsIn.after {body : Bytes} {r : ChunkRecord} (h : StandsIn body r) {e : RecipeEntry}
    (he : r.entry = e) : getChunkIV body e = r.iv ∧ getChunkContent body e = r.content ∧
      getChunkFP body e = r.fp := by
  rw [← he]
  exact ⟨h.iv_eq, h.content_eq, h.fp_eq⟩

/-- Where the bytes of a container are at hand, they are the layout of its records. -/
theorem Stores.layout {E : Fp → RecipeEntry → Prop} (h : Stores env E opens s R) (hwriter : s.writer = none)
    {p : Path}
    {body : Bytes} (hbody : (opens p).or (s.files.lookup p) = some body) :
    ∃ rs, R p = some rs ∧ body = layout rs ∧ PackedAt env p rs := by
  have hholds := h.holds
  rw [hwriter] at hholds
  have hplace := hholds.place p
  rcases Option.or_eq_some_iff.mp hbody with hopen | ⟨_, hfile⟩
  · rw [hopen] at hplace
    obtain ⟨_, _, _, rs, hrs, hlayout⟩ := hplace.of_open
    exact ⟨rs, hrs, hlayout, hholds.ok.packed hrs⟩
  · exact hholds.file hfile

/-- A recorded chunk stands in what is read of its container. -/
theorem Stores.stands {E : Fp → RecipeEntry → Prop} (h : Stores env E opens s R)
    (hwriter : s.writer = none) {r : ChunkRecord} (hr : Recorded R r) {body : Bytes}
    (hbody : (opens (pathOf r.entry)).or (s.files.lookup (pathOf r.entry)) = some body)
    (buf : Bytes) : StandsIn (memcpy buf 0 body) r := by
  obtain ⟨rs, hrs, hlayout, hpacked⟩ := h.layout hwriter hbody
  obtain ⟨rs', hrs', hmem⟩ := hr
  rw [hrs, Option.some.injEq] at hrs'
  rw [← hrs'] at hmem
  rw [memcpy_zero, hlayout]
  exact (Packed.standsIn ⟨rfl, hpacked.packed, Nat.le_of_lt hpacked.fits⟩ hmem).append _

theorem Recorded.ok {times : Nat} {r : ChunkRecord} (hr : Recorded R r)
    (hok : RecordsOk env times R) : RecordOk env (pathOf r.entry).1 r := by
  obtain ⟨rs, hrs, hmem⟩ := hr
  exact (hok.packed hrs).ok r hmem

/-- An entry is in at most one record. -/
theorem Recorded.unique {times : Nat} {r r' : ChunkRecord} (hr : Recorded R r) (hr' : Recorded R r')
    (hok : RecordsOk env times R) (heq : r.entry = r'.entry) : r = r' := by
  obtain ⟨rs, hrs, hmem⟩ := hr
  obtain ⟨rs', hrs', hmem'⟩ := hr'
  rw [← heq, hrs, Option.some.injEq] at hrs'
  rw [← hrs'] at hmem'
  exact packedFrom_offset_inj (hok.packed hrs).packed hmem hmem' (congrArg RecipeEntry.offset heq)

/-- The record `r` of `fp` decodes to the plaintext that `val` has for it, in a restore and in a
pass. -/
structure DecodesTo (env : EnclaveEnv) (val : Fp → Bytes) (fp : Fp) (r : ChunkRecord) : Prop where
  whole : r.entry.deltaFlag = NO_DELTA →
    RecoverOneChunk env r.iv r.content = val fp ∧ offlineExpand env r.iv r.content = val fp
  delta : r.entry.deltaFlag = DELTA →
    EDeltaDecode (env.DecryptionWithKeyIV r.iv r.content) (val r.entry.basechunkHash) = val fp

/-- Every fingerprint of the index has a record that decodes to its plaintext. -/
def Represents (env : EnclaveEnv) (val : Fp → Bytes) (indexObj : FpIndex) (R : Records) : Prop :=
  ∀ fp e, indexObj.lookup fp = some e → ∃ r, Recorded R r ∧ r.entry = e ∧ DecodesTo env val fp r

theorem Represents.decodes {val : Fp → Bytes} {times : Nat} (h : Represents env val s.indexObj R)
    (hok : RecordsOk env times R) {fp : Fp} {r : ChunkRecord} (hr : Recorded R r)
    (hlook : s.indexObj.lookup fp = some r.entry) : DecodesTo env val fp r := by
  obtain ⟨r₀, hr₀, heq, hden⟩ := h fp r.entry hlook
  rw [← hr₀.unique hr hok heq]
  exact hden

/-- What one step of a pass does to the storage: records are only added, and `Base-Containers/` is
left alone. -/
structure PassStored (s s' : Server) (R R' : Records) : Prop where
  grows : Grows R R'
  base : ∀ name rs, R (false, name) = some rs → R' (false, name) = some rs
  files : ∀ name, s'.files.lookup (false, name) = s.files.lookup (false, name)

theorem PassStored.refl (s : Server) (R : Records) : PassStored s s R R :=
  ⟨Grows.refl R, fun _ _ h => h, fun _ => rfl⟩

theorem PassStored.trans {t : Server} (h : PassStored s t R R') (h' : PassStored t s' R' R'') :
    PassStored s s' R R'' :=
  ⟨h.grows.trans h'.grows, fun name rs hrs => h'.base name rs (h.base name rs hrs),
    fun name => (h'.files name).trans (h.files name)⟩

/-- The chunk `d` has got the record `r` of a delta against `new`. -/
structure Replaced (s s' : Server) (R R' : Records) (d new : Fp) (r : ChunkRecord) : Prop where
  fp : r.fp = d
  flag : r.entry.deltaFlag = DELTA
  base : r.entry.basechunkHash = new
  index : s'.indexObj = s.indexObj.insert d r.entry
  added : Added (hotOpens s) R R' [r]

/-- A delta of the plaintext in the place of what was there. -/
theorem Represents.replace {val : Fp → Bytes} (h : Represents env val s.indexObj R) {d new : Fp}
    {r : ChunkRecord} (hrep : Replaced s s' R R' d new r)
    (hdec : env.DecryptionWithKeyIV r.iv r.content = EDeltaEncode env.edelta (val d) (val new))
    (hd : (val d).length ≤ MAX_CHUNK_SIZE) (hnew : (val new).length ≤ MAX_CHUNK_SIZE) :
    Represents env val s'.indexObj R' := by
  intro fp e he
  rw [hrep.index, Table.lookup_insert_ite] at he
  by_cases hfp : fp = d
  · rw [if_pos hfp, Option.some.injEq] at he
    refine ⟨r, hrep.added.recorded r List.mem_cons_self, he, ?_, fun _ => ?_⟩
    · intro hflag
      rw [hrep.flag] at hflag
      exact absurd hflag (by decide)
    · obtain ⟨ops, hops, hrun⟩ := EDeltaDecode_runScript env.edelta hd hnew
      rw [hrep.base, hdec, hops, hrun, hfp]
  · rw [if_neg hfp] at he
    obtain ⟨r₀, hr₀, hentry, hden⟩ := h fp e he
    exact ⟨r₀, hrep.added.grows.recorded hr₀, hentry, hden⟩

/-- `storeHot` of a chunk that was encoded against `new_chunk`. -/
theorem storeHot_replaced {n : UInt64} {t : Bytes} (h : Stores env (Entry s.indexObj []) (hotOpens s) s R)
    (hwriter : s.writer = none) {d new : Fp} {recipe : RecipeEntry}
    (hrecipe : s.indexObj.lookup d = some recipe) (hold : R (pathOf recipe) ≠ none)
    {chunk new_chunk : Bytes} (hchunk : chunk.length ≤ MAX_CHUNK_SIZE)
    (hnew : new_chunk.length ≤ MAX_CHUNK_SIZE)
    (hlen : (EDeltaEncode env.edelta chunk new_chunk).length ≤ chunk.length) (sf : SuperFeature)
    (iv : IV)
    (hs' : s' = storeHot env d new recipe (EDeltaEncode env.edelta chunk new_chunk) d sf iv
      { s with
        tmpOcallcontainer := t
        offlineCurrBackup_size := n })
    (htimes : s'.con_times < 2 ^ 31) :
    ∃ R' r, Stores env (Entry s'.indexObj []) (hotOpens s') s' R' ∧ PassStored s s' R R' ∧
      Replaced s s' R R' d new r ∧
      env.DecryptionWithKeyIV r.iv r.content = EDeltaEncode env.edelta chunk new_chunk := by
  have hframe := (storeHot_indexes env d new recipe (EDeltaEncode env.edelta chunk new_chunk) d sf iv
    { s with
      tmpOcallcontainer := t
      offlineCurrBackup_size := n }).2.2.2.times
  rw [← hs'] at hframe
  have hstart : Stores env (Entry s.indexObj []) (hotOpens s)
      { s with
        tmpOcallcontainer := t
        offlineCurrBackup_size := n } R := ⟨h.holds, h.indexed⟩
  obtain ⟨R', hstores, hadded⟩ := @storeHot_stores env _ R hstart
    (Nat.lt_of_le_of_lt hframe htimes) hwriter d new recipe hrecipe hold _ sf iv
    (Nat.le_trans hlen hchunk)
    (fun b => by rw [EDeltaDecode_length env.edelta hchunk hnew]; exact hchunk)
  rw [← hs'] at hstores
  refine ⟨R', _, hstores, ⟨hadded.grows, ?_, ?_⟩, ⟨rfl, rfl, rfl, ?_, hadded⟩, ?_⟩
  · intro name rs hrs
    exact hadded.keeps _ rs hrs (if_neg (by simp))
  · intro name
    rw [hs']
    exact storeHot_files ..
  · rw [hs']
    exact storeHot_indexObj ..
  · exact env.Decryption_Encrypt ..

variable {Lost : Fp → Prop} {old new : Fp}

/-- One dependent: it keeps its record, or it gets one encoded against the new base. -/
theorem updateDependent_stores (h : Stores env (Entry s.indexObj []) (hotOpens s) s R)
    (hwriter : s.writer = none) {d : Fp} {rest : List Fp} {flag flag' : Bool}
    (hreb : Rebasing s Lost old new (d :: rest) flag) {old_chunk new_chunk : Bytes}
    (hnew : new_chunk.length ≤ MAX_CHUNK_SIZE)
    (hs : updateDependent env old_chunk new_chunk new d s = some (s', flag'))
    (htimes : s'.con_times < 2 ^ 31) :
    ∃ R' r, Recorded R r ∧ s.indexObj.lookup d = some r.entry ∧
      Stores env (Entry s'.indexObj []) (hotOpens s') s' R' ∧ PassStored s s' R R' ∧
      ((s'.indexObj = s.indexObj ∧ R' = R) ∨
        ∃ r', Replaced s s' R R' d new r' ∧ env.DecryptionWithKeyIV r'.iv r'.content =
          EDeltaEncode env.edelta
            (EDeltaDecode (env.DecryptionWithKeyIV r.iv r.content) old_chunk) new_chunk) := by
  obtain ⟨recipe, body, hrecipe, hbody, hcases⟩ := updateDependent_cases hs
  obtain ⟨e, he, hflag, _⟩ := hreb.rest_on d (by simp)
  have hentry : recipe = e := by
    have hlook : s.indexObj.lookup d = some e := by simpa [Entry] using he
    rw [hrecipe, Option.some.injEq] at hlook
    exact hlook
  have hpath : pathOf recipe = (true, recipe.containerName) := by
    rw [hentry]
    unfold pathOf
    rw [hflag]
    rfl
  rw [← hpath] at hbody
  obtain ⟨r, hrec, hfp, hre, hok, hstand⟩ := h.read hwriter hrecipe hbody
  obtain ⟨hiv, hcontent, hfpr⟩ := StandsIn.after (hstand s.tmpOcallcontainer) hre
  dsimp only at hcases
  rw [hcontent, hiv, hfpr, hfp] at hcases
  have hunique : (EDeltaDecode (env.DecryptionWithKeyIV r.iv r.content) old_chunk).length ≤
      MAX_CHUNK_SIZE := hok.decode (by rw [hpath]) old_chunk
  rcases hcases with ⟨_, rfl⟩ | ⟨_, hlen, n, hs'⟩
  · exact ⟨R, r, hrec, by rw [hre, hrecipe], ⟨h.holds, h.indexed⟩,
      ⟨Grows.refl R, fun _ _ h => h, fun _ => rfl⟩, Or.inl ⟨rfl, rfl⟩⟩
  · have hpresent : R (pathOf recipe) ≠ none := by
      obtain ⟨rs, hrs, _⟩ := hrec
      rw [hre] at hrs
      rw [hrs]
      exact Option.some_ne_none rs
    obtain ⟨R', r', hstores, hpass, hrep, hdec⟩ := storeHot_replaced h hwriter hrecipe hpresent
      hunique hnew hlen _ _ hs' htimes
    exact ⟨R', r, hrec, by rw [hre, hrecipe], hstores, hpass, Or.inr ⟨r', hrep, hdec⟩⟩

theorem updateDependents_stores (h : Stores env (Entry s.indexObj []) (hotOpens s) s R)
    (hwriter : s.writer = none) {rest : List Fp} {flag flag' : Bool}
    (hreb : Rebasing s Lost old new rest flag) {old_chunk new_chunk : Bytes}
    (hnew : new_chunk.length ≤ MAX_CHUNK_SIZE)
    (hs : updateDependents env old_chunk new_chunk new rest flag s = some (s', flag'))
    (htimes : s'.con_times < 2 ^ 31) :
    ∃ R', Stores env (Entry s'.indexObj []) (hotOpens s') s' R' ∧ PassStored s s' R R' ∧
      s'.indexObj.lookup old = s.indexObj.lookup old ∧
      ∀ val : Fp → Bytes, val old = old_chunk → val new = new_chunk →
        Represents env val s.indexObj R → Represents env val s'.indexObj R' := by
  induction rest generalizing s flag R with
  | nil =>
    simp only [updateDependents, Option.some.injEq, Prod.mk.injEq] at hs
    rw [← hs.1]
    exact ⟨R, h, PassStored.refl s R, rfl, fun _ _ _ hval => hval⟩
  | cons d rest ih =>
    unfold updateDependents at hs
    obtain ⟨⟨t, tmp_delta_flag⟩, ht, hs⟩ := Option.bind_eq_some_iff.mp hs
    obtain ⟨hreb', hframe, _⟩ := updateDependent_rebasing hreb ht
    obtain ⟨_, hframe', _⟩ := updateDependents_rebasing hreb' hs
    obtain ⟨R₁, r, hrec, hlook, h₁, hpass, hcases⟩ := updateDependent_stores h hwriter hreb hnew ht
      (Nat.lt_of_le_of_lt hframe'.times htimes)
    obtain ⟨R', h', hpass', hkept, hcontent⟩ := ih h₁ (hframe.writer.trans hwriter) hreb' hs
    have hon := hreb.rest_on d List.mem_cons_self
    refine ⟨R', h', hpass.trans hpass', hkept.trans ?_, ?_⟩
    · rcases hcases with ⟨hidx, _⟩ | ⟨r', hrep, _⟩
      · rw [hidx]
      · have hd : old ≠ d := by
          rintro rfl
          exact deltaOn_not_whole hon hreb.old_whole
        rw [hrep.index, Table.lookup_insert_ite, if_neg hd]
    · intro val hval hval' hrepr
      apply hcontent val hval hval'
      rcases hcases with ⟨hidx, hR⟩ | ⟨r', hrep, hdec⟩
      · rw [hidx, hR]
        exact hrepr
      · obtain ⟨e, he, hflag, hbase⟩ := hon
        have hentry : e = r.entry := Option.some.inj (((by simpa [Entry] using he :
          s.indexObj.lookup d = some e)).symm.trans hlook)
        have hplain := (hrepr.decodes h.holds.ok hrec hlook).delta (hentry ▸ hflag)
        rw [← hentry, hbase, hval] at hplain
        rw [hplain, ← hval'] at hdec
        have hlen : (val d).length ≤ MAX_CHUNK_SIZE := by
          rw [← hplain]
          exact (hrec.ok h.holds.ok).decode (by unfold pathOf; rw [← hentry, hflag]; rfl) old_chunk
        exact hrepr.replace hrep hdec hlen (by rw [hval']; exact hnew)

/-- The old base: it keeps its record, or it gets one encoded against the new base. -/
theorem updateOldBase_stores (h : Stores env (Entry s.indexObj []) (hotOpens s) s R)
    (hwriter : s.writer = none) {old_recipe : RecipeEntry}
    (hrecipe : s.indexObj.lookup old = some old_recipe) (hpresent : R (pathOf old_recipe) ≠ none)
    {old_chunk new_chunk : Bytes} (hold : old_chunk.length ≤ MAX_CHUNK_SIZE)
    (hnew : new_chunk.length ≤ MAX_CHUNK_SIZE) (old_iv : IV) (delta_flag : Bool)
    (hs : s' = updateOldBase env old new old_recipe old_iv old_chunk new_chunk delta_flag s)
    (htimes : s'.con_times < 2 ^ 31) :
    ∃ R', Stores env (Entry s'.indexObj []) (hotOpens s') s' R' ∧ PassStored s s' R R' ∧
      ((s'.indexObj = s.indexObj ∧ R' = R) ∨
        (delta_flag = true ∧ ∃ r, Replaced s s' R R' old new r ∧
          env.DecryptionWithKeyIV r.iv r.content =
            EDeltaEncode env.edelta old_chunk new_chunk)) := by
  rcases updateOldBase_cases env old new old_recipe old_iv old_chunk new_chunk delta_flag s with
    ⟨n, heq⟩ | ⟨hflag, hlen, n, heq⟩
  · rw [← hs] at heq
    subst heq
    exact ⟨R, ⟨h.holds, h.indexed⟩, ⟨Grows.refl R, fun _ _ h => h, fun _ => rfl⟩,
      Or.inl ⟨rfl, rfl⟩⟩
  · rw [← hs] at heq
    obtain ⟨R', r, hstores, hpass, hrep, hdec⟩ := storeHot_replaced (t := s.tmpOcallcontainer) h
      hwriter hrecipe hpresent hold hnew hlen _ _ heq htimes
    exact ⟨R', hstores, hpass, Or.inr ⟨hflag, r, hrep, hdec⟩⟩

theorem WholeIn.path {idx : FpIndex} {b : Fp} (h : WholeIn idx b) {e : RecipeEntry}
    (he : idx.lookup b = some e) : pathOf e = (false, e.containerName) := by
  obtain ⟨e', he', hflag⟩ := h
  rw [he, Option.some.injEq] at he'
  unfold pathOf
  rw [he', hflag]
  rfl

theorem WholeIn.flag {idx : FpIndex} {b : Fp} (h : WholeIn idx b) {e : RecipeEntry}
    (he : idx.lookup b = some e) : e.deltaFlag = NO_DELTA := by
  obtain ⟨e', he', hflag⟩ := h
  rw [he, Option.some.injEq] at he'
  rw [he']
  exact hflag

/-- A whole pair keeps records and entries together, and what they stand for. -/
theorem Easy_update_pair_stores (h : Stores env (Entry s.indexObj []) (hotOpens s) s R)
    (hwriter : s.writer = none) (g : Graph s.indexObj s.sfObj s.delta_index [] [] Lost)
    (hwhole : WholeIn s.indexObj old) (hkept : ¬Lost old) (hnwhole : WholeIn s.indexObj new)
    (hnkept : ¬Lost new) (hne : new ≠ old) (hs : Easy_update_pair env old new s = some s')
    (htimes : s'.con_times < 2 ^ 31) :
    ∃ R', Stores env (Entry s'.indexObj []) (hotOpens s') s' R' ∧ PassStored s s' R R' ∧
      ∀ val, Represents env val s.indexObj R → Represents env val s'.indexObj R' := by
  unfold Easy_update_pair at hs
  split at hs
  · unfold greedyPair at hs
    obtain ⟨old_recipe, _, hs⟩ := Option.bind_eq_some_iff.mp hs
    obtain ⟨new_recipe, _, hs⟩ := Option.bind_eq_some_iff.mp hs
    rw [← Option.some.inj hs]
    exact ⟨R, ⟨h.holds, h.indexed⟩, ⟨Grows.refl R, fun _ _ h => h, fun _ => rfl⟩,
      fun _ hval => hval⟩
  · obtain ⟨old_recipe, hold, hcases⟩ := updatePair_cases hs
    rcases hcases with ⟨_, rfl⟩ | ⟨old_body, hbody, new_recipe, hnew, hcases⟩
    · exact ⟨R, h, PassStored.refl _ R, fun _ hval => hval⟩
    · rcases hcases with ⟨_, rfl⟩ | ⟨new_body, hbody', t, delta_flag, ht, rfl⟩
      · exact ⟨R, ⟨h.holds, h.indexed⟩, ⟨Grows.refl R, fun _ _ h => h, fun _ => rfl⟩,
          fun _ hval => hval⟩
      · rw [← hwhole.path hold] at hbody
        rw [← hnwhole.path hnew] at hbody'
        obtain ⟨r, hrec, _, hre, hok, hstand⟩ := h.read hwriter hold hbody
        obtain ⟨r', hrec', _, hre', hok', hstand'⟩ := h.read hwriter hnew hbody'
        obtain ⟨hiv, hcontent, _⟩ := StandsIn.after (hstand s.tmpOcallcontainer) hre
        obtain ⟨hiv', hcontent', _⟩ :=
          StandsIn.after (hstand' (memcpy s.tmpOcallcontainer 0 old_body)) hre'
        rw [hiv, hiv', hcontent, hcontent'] at ht htimes ⊢
        have hold_length := @offlineExpand_length env r.iv _ hok.content
        have hnew_length := @offlineExpand_length env r'.iv _ hok'.content
        have hreb := pairStart_rebasing g hold hnew hwhole hkept hnwhole hnkept hne old_body
          new_body
        obtain ⟨hend, hframe, _⟩ := updateDependents_rebasing hreb ht
        obtain ⟨_, hframe', _⟩ := @updateOldBase_graph env t Lost old new delta_flag hend
          old_recipe r.iv (offlineExpand env r.iv r.content) (offlineExpand env r'.iv r'.content)
        have hstart : Stores env (Entry s.indexObj [])
            (hotOpens (pairStart old old_recipe new_recipe new old_body new_body s))
            (pairStart old old_recipe new_recipe new old_body new_body s) R :=
          ⟨h.holds, h.indexed⟩
        obtain ⟨R₁, h₁, hpass₁, hlook, hcontent₁⟩ := updateDependents_stores
          (s := pairStart old old_recipe new_recipe new old_body new_body s) hstart hwriter hreb
          hnew_length ht (Nat.lt_of_le_of_lt hframe'.times htimes)
        have hpresent : R₁ (pathOf old_recipe) ≠ none := by
          obtain ⟨rs, hrs, _⟩ := hrec
          rw [← hre]
          refine hpass₁.grows.ne_none ?_
          rw [hrs]
          exact Option.some_ne_none rs
        obtain ⟨R', h', hpass', hcases'⟩ := updateOldBase_stores h₁
          (hframe.writer.trans hwriter) (hlook.trans hold) hpresent hold_length hnew_length r.iv
          delta_flag rfl htimes
        have hfirst : PassStored s (pairStart old old_recipe new_recipe new old_body new_body s)
            R R := ⟨Grows.refl R, fun _ _ h => h, fun _ => rfl⟩
        refine ⟨R', h', (hfirst.trans hpass₁).trans hpass', fun val hrepr => ?_⟩
        have hval : val old = offlineExpand env r.iv r.content :=
          ((hrepr.decodes h.holds.ok hrec (hre ▸ hold)).whole (hwhole.flag (hre ▸ hold))).2.symm
        have hval' : val new = offlineExpand env r'.iv r'.content :=
          ((hrepr.decodes h.holds.ok hrec' (hre' ▸ hnew)).whole (hnwhole.flag (hre' ▸ hnew))).2.symm
        have hmid := hcontent₁ val hval hval' hrepr
        rcases hcases' with ⟨hidx, hR⟩ | ⟨_, r₁, hrep, hdec⟩
        · rw [hidx, hR]
          exact hmid
        · rw [← hval, ← hval'] at hdec
          exact hmid.replace hrep hdec (by rw [hval]; exact hold_length)
            (by rw [hval']; exact hnew_length)

end Read

end ShieldReduce.Prototype
