import ShieldReduce.Prototype.PassContent

/-!
# Backups stay restorable

What a client has uploaded is what a restore sends, after any number of further sessions and passes.
-/

namespace ShieldReduce.Prototype
open Lib Store EDelta

section Conditions

/-- The chunks of a message. -/
def uploadedBy : Action → List Bytes
  | .uploadChunk chunks _ _ => chunks
  | _ => []

/-- The chunks that the messages of a run bring. -/
def uploaded (acts : List Action) : List Bytes := acts.flatMap uploadedBy

/-- The key of a chunk in the FP index. -/
def chunkKey (env : EnclaveEnv) (chunk : Bytes) : Fp := env.IndexAESCMCEnc (env.GenerateHash chunk)

def uploadEnds : Action → Bool
  | .disconnect => true
  | _ => false

/-- `DataReceiver::Run` returns when `ProcessTailBatch` has copied what the enclave still buffers. -/
def BuffersCopied (s : Server) (a : Action) : Prop :=
  uploadEnds a = true → ∀ d, (s.opened d).body = (s.opened d).buf

/-- The heap knows only what the FP index has. -/
def HeapKnown (env : EnclaveEnv) (s : Server) : Action → Prop
  | .uploadChunk chunks heap _ =>
    ∀ chunk ∈ chunks, heap (env.GenerateHash chunk) = true →
      s.indexObj.lookup (chunkKey env chunk) ≠ none
  | _ => True

/-- What the base containers are read and rewritten under, with the two conditions above. -/
structure Orderly (env : EnclaveEnv) (s : Server) (a : Action) : Prop where
  reads : ReadsComplete s a
  spares : SparesCache s a
  copied : BuffersCopied s a
  heap : HeapKnown env s a

instance (s : Server) (a : Action) : Decidable (BuffersCopied s a) :=
  decidable_of_iff (uploadEnds a = true →
      (s.opened false).body = (s.opened false).buf ∧ (s.opened true).body = (s.opened true).buf) <| by
    unfold BuffersCopied
    rw [Bool.forall_bool]

instance (env : EnclaveEnv) (s : Server) (a : Action) : Decidable (HeapKnown env s a) :=
  match a with
  | .uploadChunk chunks heap _ =>
    inferInstanceAs (Decidable (∀ chunk ∈ chunks, heap (env.GenerateHash chunk) = true →
      s.indexObj.lookup (chunkKey env chunk) ≠ none))
  | .startSession _ | .offlinedeltaTure | .storeChunk | .endBatch | .updateOutIndex
  | .uploadRecipeEnd | .disconnect | .openFile | .writeFile _ | .closeFile | .join | .processOff _
  | .getLocal | .updatePair _ | .coldrevise | .updateCold _ | .getMergeContainer | .mergePair
  | .endOffline => isTrue trivial

instance (env : EnclaveEnv) (s : Server) (a : Action) : Decidable (Orderly env s a) :=
  decidable_of_iff ((ReadsComplete s a ∧ SparesCache s a) ∧ BuffersCopied s a ∧ HeapKnown env s a)
    ⟨fun h => ⟨h.1.1, h.1.2, h.2.1, h.2.2⟩, fun h => ⟨⟨h.reads, h.spares⟩, h.copied, h.heap⟩⟩

end Conditions

/-- The entries of the batch whose chunks are still to be stored. -/
def awaiting : Phase → List QueryEntry
  | .uploading (.chunkLoop b) => b.todo
  | .uploading (.loaded x b) => x :: b.todo
  | _ => []

/-- After the chunks `seen`: each is registered or on its way, and everything indexed decodes to
`val`, which has the chunks of `all` under their keys. -/
structure Kept (env : EnclaveEnv) (all : List Bytes) (val : Fp → Bytes) (seen : List Bytes)
    (s : Server) (R : Records) (Lost : Fp → Prop) : Prop where
  inv : Inv env s R Lost
  contents : Contents env val (Entry s.indexObj (inflight s.phase).1) R
  cache : CacheOk s
  named : ∀ x ∈ awaiting s.phase, x.chunkHash = chunkKey env x.chunk ∧ x.chunk ∈ all
  known : ∀ chunk ∈ seen, (∃ e, Entry s.indexObj (inflight s.phase).1 (chunkKey env chunk) e) ∨
    ∃ x ∈ awaiting s.phase, x.chunkHash = chunkKey env chunk

section Store
variable {env : EnclaveEnv} {s s' : Server} {R : Records} {Lost : Fp → Prop} {val : Fp → Bytes}

/-- A delta is encoded against the plaintext of its base. -/
theorem Contents.refChunk (h : Inv env s R Lost) (hok : CacheOk s)
    (hval : Contents env val (Entry s.indexObj (inflight s.phase).1) R) {x : QueryEntry} {b : Batch}
    (hphase : s.phase = .uploading (.loaded x b)) (hdelta : x.deltaFlag = DELTA) :
    refChunk env x = val x.basechunkHash := by
  obtain ⟨haddr, hflag⟩ := h.loadedBase hphase hdelta
  obtain ⟨r, ⟨rs, hrs, hmem⟩, hentry, hdec⟩ := hval _ _ (Or.inl haddr)
  have hpath : pathOf r.entry = (false, x.basechunkAddr.containerName) := by
    rw [hentry]
    unfold pathOf
    rw [hflag]
    rfl
  rw [hpath] at hrs
  obtain ⟨himage, _⟩ := hok.images _ (hok.loaded x b hphase hdelta)
  have hfile := (himage.holds h hrs).1
  have hpacked := h.stores.holds.ok.packed hrs
  have hstands := Packed.standsIn ⟨rfl, hpacked.packed, Nat.le_of_lt hpacked.fits⟩ hmem
  have hdata : StandsIn x.containerbuffer r := by
    rw [← List.take_append_drop (layout rs).length x.containerbuffer, himage.image _ hfile]
    exact hstands.append _
  obtain ⟨hiv, hcontent, _⟩ := StandsIn.after hdata hentry
  unfold Prototype.refChunk
  rw [hiv, hcontent]
  exact (hdec.whole (hentry ▸ hflag)).1

/-- The record of a stored chunk decodes to it. -/
theorem uniqueRecord_decodes (h : Inv env s R Lost) (hok : CacheOk s)
    (hval : Contents env val (Entry s.indexObj (inflight s.phase).1) R) {x : QueryEntry} {b : Batch}
    (hphase : s.phase = .uploading (.loaded x b)) (hrecover : Recoverable env x.chunk)
    (hkey : val x.chunkHash = x.chunk) {a : RecipeEntry} {buf : Bytes} (hstored : StoredAs env x a buf) :
    DecodesTo env val x.chunkHash (uniqueRecord env a buf x.superfeature x.chunkHash s) := by
  obtain ⟨hgraph, hstores, hstage⟩ := h.at hphase
  cases hstage with
  | loaded wait body batch =>
    have hne : DELTA ≠ NO_DELTA := by decide
    obtain ⟨haddr, _⟩ := batch.loaded x (by simp)
    obtain ⟨hpos, hmax⟩ := batch.size x (by simp [batchEntries])
    obtain ⟨hflag', hbase', _⟩ := ProcessSheUniqueChunk_addr env a buf x.superfeature x.chunkHash s
    rcases hstored with ⟨rfl, rfl⟩ | ⟨hdelta, rfl, rfl⟩
    · refine ⟨fun _ => ?_, fun hflag => ?_⟩
      · have hboth := (expand_uniqueContent (PickNewIV s.iv) hpos hmax).mpr hrecover
        rw [hkey]
        unfold uniqueRecord uniqueCipher
        rw [haddr]
        exact hboth
      · exact absurd ((hflag.symm.trans hflag').trans haddr) hne
    · refine ⟨fun hflag => absurd (hflag'.symm.trans hflag) hne, fun _ => ?_⟩
      have hb := batch.base x (by simp [batchEntries]) (Or.inl (by rw [hdelta]; exact hne))
      have href := hval.refChunk h hok hphase hdelta
      have hlen : (refChunk env x).length ≤ MAX_CHUNK_SIZE := by
        apply RecoverOneChunk_length
        unfold getChunkContent
        rw [readAt_length]
        exact hstores.indexed.short (Or.inl hb.addr)
      obtain ⟨ops, hops, hrun⟩ := EDeltaDecode_runScript env.edelta hmax hlen
      have hraw : uniqueContent env DELTA (EDeltaEncode env.edelta x.chunk (refChunk env x)) =
          EDeltaEncode env.edelta x.chunk (refChunk env x) := if_neg hne
      have hentry : (uniqueRecord env { x.chunkAddr with deltaFlag := DELTA }
          (EDeltaEncode env.edelta x.chunk (refChunk env x)) x.superfeature x.chunkHash
          s).entry.basechunkHash = x.basechunkHash := hbase'.trans hb.hash
      rw [hentry, ← href, hkey]
      unfold uniqueRecord uniqueCipher
      rw [env.Decryption_Encrypt, hraw, hops, hrun]

/-- Records are lost with the buffers that nobody copied, and with no others. -/
theorem closedRecords_keep (h : Inv env s R Lost) {stage : UploadStage}
    (hphase : s.phase = .uploading stage) (hcopied : ∀ d, (s.opened d).body = (s.opened d).buf)
    {p : Path} {rs : List ChunkRecord} (hrs : R p = some rs) (hne : rs ≠ []) :
    closedRecords s R p = some rs := by
  unfold closedRecords
  rw [if_neg, hrs]
  rintro ⟨hname, hbody⟩
  obtain ⟨_, hstores, _⟩ := h.at hphase
  have hplace := hstores.holds.place p
  have hopen : opensIn (.uploading stage) s p = some [] := by
    change (if (s.opened p.1).containerID = p.2 then some (s.opened p.1).buf else none) = some []
    rw [if_pos hname, ← hcopied, hbody]
  rw [hopen, hrs] at hplace
  obtain ⟨_, _, _, rs', hrs', hnil⟩ := hplace.of_open
  rw [← Option.some.inj hrs'] at hnil
  cases rs with
  | nil => exact hne rfl
  | cons r rs =>
    have hlen := congrArg List.length hnil
    have hpos := size_pos r
    rw [layout_cons, List.length_append, ChunkRecord.toBytes_length, List.length_nil] at hlen
    omega

end Store

section Steps
variable {env : EnclaveEnv} {s s' : Server} {R R' : Records} {Lost Lost' : Fp → Prop}
  {all seen : List Bytes} {val : Fp → Bytes} {a : Action}

/-- A step that neither takes nor stores a chunk. -/
theorem Kept.same (h : Kept env all val seen s R Lost) (hinv : Inv env s' R' Lost')
    (hcache : CacheOk s') (hval : Contents env val (Entry s.indexObj (inflight s.phase).1) R')
    (hE : ∀ fp e, Entry s'.indexObj (inflight s'.phase).1 fp e ↔
      Entry s.indexObj (inflight s.phase).1 fp e)
    (hawait : awaiting s'.phase = awaiting s.phase) : Kept env all val seen s' R' Lost' := by
  refine ⟨hinv, hval.congr fun fp e he => (hE fp e).mp he, hcache, ?_, ?_⟩
  · rw [hawait]
    exact h.named
  · intro chunk hchunk
    rw [hawait]
    exact (h.known chunk hchunk).imp_left fun ⟨e, he⟩ => ⟨e, (hE _ e).mpr he⟩

theorem Afterwards.quiet (h : Afterwards s) : inflight s.phase = ([], []) ∧ awaiting s.phase = [] := by
  rcases h with h | ⟨stage, h⟩
  · rw [h]
    exact ⟨rfl, rfl⟩
  · rw [h]
    exact ⟨rfl, rfl⟩

theorem Stepped.afterwards (h : Stepped env s a s') (hpass : PassAction a) : Afterwards s := by
  cases h with
  | processOff hphase _ => exact Or.inl hphase
  | getLocal hphase _ _ => exact Or.inr ⟨_, hphase⟩
  | updatePair hphase _ _ => exact Or.inr ⟨_, hphase⟩
  | coldrevise hphase _ _ => exact Or.inr ⟨_, hphase⟩
  | updateCold hphase _ _ => exact Or.inr ⟨_, hphase⟩
  | getMergeContainer hphase => exact Or.inr ⟨_, hphase⟩
  | mergePair hphase _ => exact Or.inr ⟨_, hphase⟩
  | endOffline hphase => exact Or.inr ⟨_, hphase⟩
  | _ => exact absurd hpass id

/-- A step of a pass. -/
theorem Kept.pass_step (h : Kept env all val seen s R Lost) (hcache : CacheOk s')
    (hs : step env s a = some s') (hpass : PassAction a) :
    ∃ R' Lost', Kept env all val seen s' R' Lost' := by
  obtain ⟨hstepped, _⟩ := step_stepped hs
  have hafter := hstepped.afterwards hpass
  obtain ⟨hinflight, hawait⟩ := hafter.quiet
  have hval := h.contents
  rw [hinflight] at hval
  obtain ⟨R', Lost', hinv', hval'⟩ := hval.pass_step h.inv hpass hs
  obtain ⟨hkeys, hafter'⟩ := hstepped.pass_keys h.inv hafter (by
    rintro iv rfl
    exact hpass)
  obtain ⟨hinflight', hawait'⟩ := hafter'.quiet
  refine ⟨R', Lost', hinv', ?_, hcache, ?_, ?_⟩
  · rw [hinflight']
    exact hval'
  · rw [hawait']
    intro x hx
    exact absurd hx List.not_mem_nil
  · intro chunk hchunk
    rw [hinflight']
    rcases h.known chunk hchunk with ⟨e, he⟩ | ⟨x, hx, _⟩
    · rw [hinflight] at he
      have hsome : s'.indexObj.lookup (chunkKey env chunk) ≠ none := by
        intro hnone
        have hlook := (entry_lookup s.indexObj _ e).mp he
        rw [(hkeys _).mp hnone] at hlook
        simp at hlook
      obtain ⟨e', he'⟩ := Option.ne_none_iff_exists'.mp hsome
      exact Or.inl ⟨e', Or.inl he'⟩
    · rw [hawait] at hx
      exact absurd hx List.not_mem_nil

/-- What a message brings is queried, or the index has it. -/
theorem Kept.uploadChunk (h : Kept env all val seen s R Lost) (hcache : CacheOk s')
    {chunks : List Bytes} {heap : Fp → Bool} {left : Nat → RecipeEntry}
    (hs : step env s (.uploadChunk chunks heap left) = some s')
    (hall : ∀ chunk ∈ chunks, chunk ∈ all) (hheap : HeapKnown env s (.uploadChunk chunks heap left)) :
    Kept env all val (seen ++ chunks) s' R Lost := by
  obtain ⟨hstepped, _⟩ := step_stepped hs
  cases hstepped with
  | uploadChunk hphase hsize =>
    have hinv' := uploadChunk_inv h.inv hphase hsize heap left
    have hE : Entry s.indexObj (inflight s.phase).1 = Entry s.indexObj [] := by
      rw [hphase]
      rfl
    have hnone : awaiting s.phase = [] := by
      rw [hphase]
      rfl
    have hquery := (@outQueries_spec env heap left 0 [] chunks).1
    refine ⟨hinv', ?_, hcache, ?_, ?_⟩
    · have hval := h.contents
      rw [hE] at hval
      exact hval
    · intro x hx
      obtain ⟨y, hy, rfl⟩ := List.mem_map.mp hx
      obtain ⟨q, hq, rfl⟩ := List.mem_map.mp (List.mem_filter.mp hy).1
      obtain ⟨hmem, hin, _, hhash, _⟩ := hquery q hq
      have hsame : (Ocall_QueryOutBasechunk s (Ocall_QueryOutIndex s q)).chunkHash = q.chunkHash ∧
          (Ocall_QueryOutBasechunk s (Ocall_QueryOutIndex s q)).chunk = q.chunk := by
        unfold Ocall_QueryOutBasechunk Ocall_QueryOutIndex
        split <;> split <;> exact ⟨rfl, rfl⟩
      rw [hsame.1, hsame.2, hhash, hin]
      exact ⟨rfl, hall _ hmem⟩
    · intro chunk hchunk
      change (∃ e, Entry s.indexObj [] (chunkKey env chunk) e) ∨ _
      rcases List.mem_append.mp hchunk with hseen | hnew
      · rcases h.known chunk hseen with ⟨e, he⟩ | ⟨x, hx, _⟩
        · rw [hE] at he
          exact Or.inl ⟨e, he⟩
        · rw [hnone] at hx
          exact absurd hx List.not_mem_nil
      · cases hlook : s.indexObj.lookup (chunkKey env chunk) with
        | some e => exact Or.inl ⟨e, Or.inl hlook⟩
        | none =>
          have hout : heap (env.GenerateHash chunk) = false := by
            by_contra hin
            exact hheap chunk hnew (by simpa using hin) hlook
          obtain ⟨q, hq, hfp⟩ := (@mem_outQueries env heap left 0 [] chunks
            (env.GenerateHash chunk)).mpr ⟨by simp, hout, chunk, hnew, rfl⟩
          obtain ⟨_, _, _, hhash, _⟩ := hquery q hq
          have hkey : q.chunkHash = chunkKey env chunk := by
            rw [hhash, hfp]
            rfl
          have hunique : Ocall_QueryOutIndex s q = { q with dedupFlag := .UNIQUE } := by
            unfold Ocall_QueryOutIndex
            rw [hkey, hlook]
          refine Or.inr ⟨Ocall_QueryOutBasechunk s (Ocall_QueryOutIndex s q), ?_, ?_⟩
          · refine List.mem_map.mpr ⟨_, List.mem_filter.mpr ⟨List.mem_map.mpr ⟨q, hq, rfl⟩, ?_⟩, rfl⟩
            rw [hunique]
            rfl
          · rw [hunique]
            unfold Ocall_QueryOutBasechunk
            split <;> exact hkey

/-- The base of a chunk is loaded. -/
theorem Kept.offlinedeltaTure (h : Kept env all val seen s R Lost) (hcache : CacheOk s')
    (hs : step env s .offlinedeltaTure = some s') : Kept env all val seen s' R Lost := by
  obtain ⟨hstepped, _⟩ := step_stepped hs
  cases hstepped with
  | @offlinedeltaTure Local_Flag x todo done process_buffer batch_basemap hphase =>
    have hinv' := offlinedeltaTure_inv h.inv hphase
    obtain ⟨c, t, hframe⟩ := OfflinedeltaTure_frame Local_Flag x s
    have hsame : (OfflinedeltaTure Local_Flag x s).1.chunkHash = x.chunkHash ∧
        (OfflinedeltaTure Local_Flag x s).1.chunk = x.chunk := by
      unfold OfflinedeltaTure
      dsimp only
      split
      · exact ⟨rfl, rfl⟩
      · split
        · split
          · exact ⟨rfl, rfl⟩
          · split
            · exact ⟨rfl, rfl⟩
            · split <;> exact ⟨rfl, rfl⟩
        · exact ⟨rfl, rfl⟩
    have hindex : (OfflinedeltaTure Local_Flag x s).2.2.indexObj = s.indexObj := by
      rw [hframe]
    have hinflight : (inflight s.phase).1 = done := by
      rw [hphase]
      rfl
    have hawait : awaiting s.phase = x :: todo := by
      rw [hphase]
      rfl
    have hval := h.contents
    have hnamed := h.named
    have hknown := h.known
    rw [hinflight] at hval hknown
    rw [hawait] at hnamed hknown
    refine ⟨hinv', ?_, hcache, ?_, ?_⟩
    · change Contents env val (Entry (OfflinedeltaTure Local_Flag x s).2.2.indexObj done) R
      rw [hindex]
      exact hval
    · intro y hy
      rcases List.mem_cons.mp hy with rfl | hy
      · rw [hsame.1, hsame.2]
        exact hnamed x List.mem_cons_self
      · exact hnamed y (List.mem_cons_of_mem x hy)
    · intro chunk hchunk
      change (∃ e, Entry (OfflinedeltaTure Local_Flag x s).2.2.indexObj done _ e) ∨ _
      rw [hindex]
      refine (hknown chunk hchunk).imp_right ?_
      rintro ⟨y, hy, hkey⟩
      rcases List.mem_cons.mp hy with rfl | hy
      · exact ⟨_, List.mem_cons_self, hsame.1.trans hkey⟩
      · exact ⟨y, List.mem_cons_of_mem _ hy, hkey⟩

theorem storeChunk_hash (env : EnclaveEnv) (x : QueryEntry) (s : Server) :
    (storeChunk env x s).1.chunkHash = x.chunkHash := by
  unfold storeChunk ProcessDeltachunk
  dsimp only
  split
  · dsimp only
    split <;> rfl
  · dsimp only
    split <;> rfl

/-- A chunk is stored, and its record decodes to it. -/
theorem Kept.storeChunk (h : Kept env all val seen s R Lost) (hcache : CacheOk s')
    (hs : step env s .storeChunk = some s')
    (hall : ∀ chunk ∈ all, Recoverable env chunk ∧ val (chunkKey env chunk) = chunk) :
    ∃ R', Kept env all val seen s' R' Lost := by
  obtain ⟨hstepped, htimes⟩ := step_stepped hs
  cases hstepped with
  | @storeChunk x b hphase =>
    obtain ⟨q, o, t, n, hframe, hle⟩ := storeChunk_frame env x s
    have htimes' : (Prototype.storeChunk env x s).2.2.con_times < 2 ^ 31 := htimes
    rw [hframe] at htimes'
    obtain ⟨R', addr, buf, hinv', hadded, hstored, _, haddr⟩ := storeChunk_inv h.inv hphase
      (Nat.lt_of_le_of_lt hle htimes')
    have hindex : (Prototype.storeChunk env x s).2.2.indexObj = s.indexObj := by
      rw [hframe]
    have hhash : (Prototype.storeChunk env x s).1.chunkHash = x.chunkHash := storeChunk_hash env x s
    have hawait : awaiting s.phase = x :: b.todo := by
      rw [hphase]
      rfl
    have hinflight : (inflight s.phase).1 = b.done := by
      rw [hphase]
      rfl
    have hval := h.contents
    have hnamed := h.named
    have hknown := h.known
    rw [hinflight] at hknown
    rw [hawait] at hnamed hknown
    obtain ⟨hname, hmem⟩ := hnamed x List.mem_cons_self
    obtain ⟨hrecover, hkey⟩ := hall x.chunk hmem
    have hdecodes := uniqueRecord_decodes h.inv h.cache hval hphase hrecover (by rw [hname, hkey])
      hstored
    have hE : ∀ fp e, Entry (Prototype.storeChunk env x s).2.2.indexObj
        (b.done ++ [(Prototype.storeChunk env x s).1]) fp e ↔ Entry s.indexObj b.done fp e ∨
          (fp = x.chunkHash ∧ e = (uniqueRecord env addr buf x.superfeature x.chunkHash s).entry) := by
      intro fp e
      rw [hindex, entry_snoc, hhash, haddr]
    refine ⟨R', hinv', ?_, hcache, fun y hy => hnamed y (List.mem_cons_of_mem x hy), ?_⟩
    · rw [hinflight] at hval
      exact (hval.grows hadded.grows).add (hadded.recorded _ List.mem_cons_self) hdecodes
        fun fp e he => (hE fp e).mp he
    · intro chunk hchunk
      rcases hknown chunk hchunk with ⟨e, he⟩ | ⟨y, hy, hkey'⟩
      · exact Or.inl ⟨e, (hE _ e).mpr (Or.inl he)⟩
      · rcases List.mem_cons.mp hy with rfl | hy
        · exact Or.inl ⟨_, (hE _ _).mpr (Or.inr ⟨hkey'.symm, rfl⟩)⟩
        · exact Or.inr ⟨y, hy, hkey'⟩

/-- One step, of a session or of a pass. -/
theorem Kept.step (h : Kept env all val seen s R Lost) (horderly : Orderly env s a)
    (hs : step env s a = some s') (huploads : ∀ chunk ∈ uploadedBy a, chunk ∈ all)
    (hall : ∀ chunk ∈ all, Recoverable env chunk ∧ val (chunkKey env chunk) = chunk) :
    ∃ R' Lost', Kept env all val (seen ++ uploadedBy a) s' R' Lost' := by
  have hcache := h.cache.step h.inv horderly.reads horderly.spares hs
  obtain ⟨hstepped, htimes⟩ := step_stepped hs
  have hquiet : uploadedBy a = [] → ∀ {R' : Records} {Lost' : Fp → Prop},
      Kept env all val seen s' R' Lost' →
        ∃ R' Lost', Kept env all val (seen ++ uploadedBy a) s' R' Lost' := by
    intro hnone R' Lost' hkept
    rw [hnone, List.append_nil]
    exact ⟨R', Lost', hkept⟩
  cases a with
  | startSession iv =>
    cases hstepped with
    | startSession hphase =>
      obtain ⟨R', hinv', hgrows⟩ := startSession_opens h.inv hphase iv htimes
      refine hquiet rfl (h.same hinv' hcache (h.contents.grows hgrows) ?_ ?_)
      · rw [hphase]
        exact fun _ _ => Iff.rfl
      · rw [hphase]
        rfl
  | uploadChunk chunks heap left =>
    exact ⟨R, Lost, h.uploadChunk hcache hs huploads horderly.heap⟩
  | offlinedeltaTure => exact hquiet rfl (h.offlinedeltaTure hcache hs)
  | storeChunk =>
    obtain ⟨R', hkept⟩ := h.storeChunk hcache hs hall
    exact hquiet rfl hkept
  | endBatch =>
    cases hstepped with
    | @endBatch b hphase htodo =>
      obtain ⟨di, tmp, skip, hframe⟩ := finishBatch_frame b s
      have hindex : (finishBatch b s).indexObj = s.indexObj := by
        rw [hframe]
      refine hquiet rfl (h.same (endBatch_inv h.inv hphase htodo) hcache h.contents ?_ ?_)
      · intro fp e
        change Entry (finishBatch b s).indexObj b.done fp e ↔ _
        rw [hindex, hphase]
        rfl
      · rw [hphase]
        exact htodo.symm
  | updateOutIndex =>
    cases hstepped with
    | @updateOutIndex b hphase =>
      obtain ⟨_, _, hstage⟩ := h.inv.at hphase
      obtain ⟨idx, sf, hframe, hidx⟩ := h.inv.registered hphase
      have hindex : (Ocall_UpdateOutIndex b.done s).indexObj = idx := by
        rw [hframe]
      refine hquiet rfl (h.same (updateOutIndex_inv h.inv hphase) hcache h.contents ?_ ?_)
      · intro fp e
        change Entry (Ocall_UpdateOutIndex b.done s).indexObj [] fp e ↔ _
        rw [hindex, hphase, entry_lookup]
        exact hidx fp e
      · rw [hphase]
        rfl
  | uploadRecipeEnd =>
    cases hstepped with
    | uploadRecipeEnd hphase =>
      refine hquiet rfl (h.same (uploadRecipeEnd_inv h.inv hphase) hcache h.contents ?_ ?_)
      · rw [hphase]
        exact fun _ _ => Iff.rfl
      · rw [hphase]
        rfl
  | disconnect =>
    cases hstepped with
    | disconnect hphase =>
      obtain ⟨stage, hstage⟩ : ∃ stage, s.phase = .uploading stage := by
        rcases hphase with hphase | hphase
        · exact ⟨_, hphase⟩
        · exact ⟨_, hphase⟩
      obtain ⟨q, o, t, hframe, _⟩ := closeSession_frame s
      have hindex : (closeSession s).indexObj = s.indexObj := by
        rw [hframe]
      have hdone : (inflight s.phase).1 = [] ∧ awaiting s.phase = [] := by
        rcases hphase with hphase | hphase
        · rw [hphase]
          exact ⟨rfl, rfl⟩
        · rw [hphase]
          exact ⟨rfl, rfl⟩
      have hkeep := h.contents.keep fun _ _ hrs hne =>
        closedRecords_keep h.inv hstage (horderly.copied rfl) hrs hne
      refine hquiet rfl (h.same (disconnect_inv h.inv hphase) hcache hkeep ?_ ?_)
      · intro fp e
        change Entry (closeSession s).indexObj [] fp e ↔ _
        rw [hindex, hdone.1]
      · exact hdone.2.symm
  | openFile =>
    cases hstepped with
    | openFile hphase hwriter hqueue =>
      exact hquiet rfl (h.same (openFile_inv h.inv hphase hwriter hqueue) hcache h.contents
        (fun _ _ => Iff.rfl) rfl)
  | writeFile n =>
    cases hstepped with
    | writeFile hphase hwriter =>
      exact hquiet rfl (h.same (writeFile_inv h.inv hphase n hwriter) hcache h.contents
        (fun _ _ => Iff.rfl) rfl)
  | closeFile =>
    cases hstepped with
    | closeFile hphase hwriter =>
      exact hquiet rfl (h.same (closeFile_inv h.inv hphase hwriter) hcache h.contents
        (fun _ _ => Iff.rfl) rfl)
  | join =>
    cases hstepped with
    | join hphase hqueue hwriter =>
      refine hquiet rfl (h.same (join_inv h.inv hphase hqueue hwriter) hcache h.contents ?_ ?_)
      · rw [hphase]
        exact fun _ _ => Iff.rfl
      · rw [hphase]
        rfl
  | _ =>
    obtain ⟨R', Lost', hkept⟩ := h.pass_step hcache hs trivial
    exact hquiet rfl hkept

/-- A run of sessions and passes. -/
theorem kept_runs {acts : List Action} (h : Kept env all val seen s R Lost)
    (hmeet : StepsMeet (step env) (Orderly env) s acts) (hrun : runs (step env) s acts = some s')
    (huploads : ∀ chunk ∈ uploaded acts, chunk ∈ all)
    (hall : ∀ chunk ∈ all, Recoverable env chunk ∧ val (chunkKey env chunk) = chunk) :
    ∃ R' Lost', Kept env all val (seen ++ uploaded acts) s' R' Lost' := by
  induction acts generalizing s seen R Lost with
  | nil =>
    rw [runs, Option.some.injEq] at hrun
    subst hrun
    exact ⟨R, Lost, by simpa [uploaded] using h⟩
  | cons a acts ih =>
    obtain ⟨t, hs, hrun⟩ := runs_cons.mp hrun
    have hsplit : uploaded (a :: acts) = uploadedBy a ++ uploaded acts := List.flatMap_cons
    rw [hsplit] at huploads ⊢
    obtain ⟨R₁, Lost₁, h₁⟩ := h.step hmeet.1 hs
      (fun chunk hc => huploads chunk (List.mem_append_left _ hc)) hall
    rw [← List.append_assoc]
    exact ih h₁ (hmeet.2 t hs) hrun fun chunk hc => huploads chunk (List.mem_append_right _ hc)

theorem Kept.start (Forward_Flag Offline_Flag : Bool) :
    Kept env all val [] (Server.start Forward_Flag Offline_Flag) (fun _ => none) fun _ => False := by
  refine ⟨Inv.start Forward_Flag Offline_Flag, ?_, cacheOk_start Forward_Flag Offline_Flag, ?_, ?_⟩
  · intro fp e he
    have hlook := (entry_lookup _ fp e).mp he
    change (∅ : FpIndex).lookup fp = some e at hlook
    simp at hlook
  · intro x hx
    exact absurd hx List.not_mem_nil
  · intro chunk hchunk
    exact absurd hchunk List.not_mem_nil

end Steps

section Uploads
variable {env : EnclaveEnv} {s : Server}

/-- Chunks with hashes of their own are the values of their keys. -/
theorem exists_values {chunks : List Bytes}
    (hinj : ∀ chunk ∈ chunks, ∀ chunk' ∈ chunks,
      env.GenerateHash chunk = env.GenerateHash chunk' → chunk = chunk') :
    ∃ val : Fp → Bytes, ∀ chunk ∈ chunks, val (chunkKey env chunk) = chunk := by
  refine ⟨fun fp => (chunks.find? fun chunk => chunkKey env chunk = fp).getD [], ?_⟩
  intro chunk hchunk
  dsimp only
  cases hfind : chunks.find? fun chunk' => chunkKey env chunk' = chunkKey env chunk with
  | none => simpa using List.find?_eq_none.mp hfind chunk hchunk
  | some chunk' =>
    have hkey : chunkKey env chunk' = chunkKey env chunk := by
      simpa using List.find?_some hfind
    exact hinj chunk' (List.mem_of_find?_eq_some hfind) chunk hchunk
      (env.IndexAESCMCEnc_injective hkey)

/-- What a restore sends in an idle state. -/
theorem Kept.sent {R : Records} {Lost : Fp → Prop} {all seen : List Bytes} {val : Fp → Bytes}
    (h : Kept env all val seen s R Lost) (hidle : s.phase = .idle) {chunk : Bytes}
    (hchunk : chunk ∈ seen) : restored env s.indexObj (requested s) (env.GenerateHash chunk) =
      some (val (chunkKey env chunk)) := by
  have hknown := h.known chunk hchunk
  have hcontents := h.contents
  rw [hidle] at hknown hcontents
  rcases hknown with ⟨e, he⟩ | ⟨x, hx, _⟩
  · exact hcontents.chunkAt h.inv hidle ((entry_lookup _ _ e).mp he)
  · exact absurd hx List.not_mem_nil

/-- Any sequence of sessions and passes, and any interleaving of the upload thread and the writer
thread in them: a restore sends for the hash of every chunk that was ever uploaded that chunk. -/
theorem uploads_restored {Forward_Flag Offline_Flag : Bool} {acts : List Action}
    (hrun : runs (step env) (Server.start Forward_Flag Offline_Flag) acts = some s)
    (hidle : s.phase = .idle)
    (horderly : StepsMeet (step env) (Orderly env) (Server.start Forward_Flag Offline_Flag) acts)
    (hrecover : ∀ chunk ∈ uploaded acts, Recoverable env chunk)
    (hinj : ∀ chunk ∈ uploaded acts, ∀ chunk' ∈ uploaded acts,
      env.GenerateHash chunk = env.GenerateHash chunk' → chunk = chunk') :
    ∀ chunk ∈ uploaded acts,
      restored env s.indexObj (requested s) (env.GenerateHash chunk) = some chunk := by
  obtain ⟨val, hval⟩ := exists_values hinj
  obtain ⟨R, Lost, hkept⟩ := kept_runs (Kept.start Forward_Flag Offline_Flag) horderly hrun
    (fun _ hc => hc) fun chunk hc => ⟨hrecover chunk hc, hval chunk hc⟩
  intro chunk hchunk
  rw [hkept.sent hidle (List.mem_append_right [] hchunk), hval chunk hchunk]

end Uploads

/-- Two backups, the pass that makes the chunk of the first one a delta, and a third backup with a
delta against the base that the pass has moved. -/
def threeBackups : List Action :=
  [[.startSession (FixedBytes.fill 16 0)],
    uploadBatch [otherBase, plainBase] 2,
    [.uploadRecipeEnd, .disconnect], saveOne, [.join, .startSession (FixedBytes.fill 16 0)],
    uploadBatch [dependentChunk 2] 1,
    [.uploadRecipeEnd, .disconnect], saveOne,
    [.join, .processOff [(plainFp plainBase, plainFp (dependentChunk 2))], .getLocal,
      .updatePair (plainFp plainBase), .coldrevise, .updateCold (CreateUUID 1), .getMergeContainer,
      .mergePair, .endOffline, .startSession (FixedBytes.fill 16 9)],
    uploadBatch (dependentChunk 3 :: List.replicate 33 plainBase) 1,
    [.uploadRecipeEnd, .disconnect], saveOne, [.join]].flatten

theorem uploads_restored_three : ∃ s,
    runs (step firstByteEnv) (Server.start false true) threeBackups = some s ∧
    (s.indexObj.lookup (plainFp plainBase)).map RecipeEntry.deltaFlag = some DELTA ∧
    (s.indexObj.lookup (plainFp (dependentChunk 3))).map RecipeEntry.deltaFlag = some DELTA ∧
    ∀ chunk ∈ uploaded threeBackups,
      restored firstByteEnv s.indexObj (requested s) (plainFp chunk) = some chunk := by
  have hend : ((runs (step firstByteEnv) (Server.start false true) threeBackups).map fun s =>
      (s.phase, (s.indexObj.lookup (plainFp plainBase)).map RecipeEntry.deltaFlag,
        (s.indexObj.lookup (plainFp (dependentChunk 3))).map RecipeEntry.deltaFlag)) =
          some (.idle, some DELTA, some DELTA) := by
    decide +kernel
  obtain ⟨s, hs, heq⟩ := Option.map_eq_some_iff.mp hend
  simp only [Prod.mk.injEq] at heq
  obtain ⟨hidle, hrebased, hdelta⟩ := heq
  have horderly : StepsMeet (step firstByteEnv) (Orderly firstByteEnv) (Server.start false true)
      threeBackups := by
    decide +kernel
  have hraw : ∀ chunk ∈ uploaded threeBackups,
      LZ4_decompress_safe chunk MAX_CHUNK_SIZE = none := by
    decide +kernel
  have hinj : ∀ chunk ∈ uploaded threeBackups, ∀ chunk' ∈ uploaded threeBackups,
      firstByteEnv.GenerateHash chunk = firstByteEnv.GenerateHash chunk' → chunk = chunk' := by
    decide +kernel
  refine ⟨s, hs, hrebased, hdelta, uploads_restored hs hidle horderly (fun chunk hc _ out hout => ?_)
    hinj⟩
  rw [hraw chunk hc] at hout
  simp at hout

end ShieldReduce.Prototype
