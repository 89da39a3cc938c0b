import ShieldReduce.Lib.Runs
import ShieldReduce.Prototype.ContainerCache

/-!
# The image of the base container under two clients

`containerbuffer` points into memory that both clients use: into the buffer that
`Ocall_getRefContainer` reads into, or into a slot of the container cache. `ProcessDeltachunk` follows
the pointer after `inContainerLck_` has been released.
-/

namespace ShieldReduce.MultiClient
open Lib Store Prototype

section Model

inductive ContainerPointer
  | tmpOcallcontainer
  | containerPool (slot : Nat)
deriving DecidableEq

/-- What a client does next. -/
inductive BaseStage
  | ready
  /-- `OfflinedeltaTure` has found the container in the cache. -/
  | found
  /-- It has not, and will take `inContainerLck_`. -/
  | missed
  /-- `ProcessDeltachunk` will look for the name. -/
  | loaded
  /-- It has found the name and will copy the content of the base. -/
  | checked
  /-- It will copy the IV of the base. -/
  | contentRead
deriving DecidableEq

/-- The arguments of `OfflinedeltaTure`, as `EntryLoad` leaves them. -/
structure BaseQuery where
  chunkHash : Fp
  deltaFlag : UInt8
  basechunkHash : Fp
  outChunkHash : Fp
  basechunkAddr : RecipeEntry

/-- `temp_chunkbuffer` and `temp_iv` are what `ProcessDeltachunk` has read. -/
structure BaseClient where
  stage : BaseStage
  query : BaseQuery
  deltaFlag : UInt8
  offlineFlag : Bool
  inBasechunkHash : Fp
  containerbuffer : ContainerPointer
  batch_basemap : List (Fp × Fp)
  temp_chunkbuffer : Bytes
  temp_iv : IV

/-- `readFor` is the history of `tmpOcallcontainer`: the container that it was read for last. -/
structure SharedBase where
  tmpOcallcontainer : ContainerBuffer
  readFor : Option ContainerName
  InContainercache_ : InContainercache
  client : Bool → BaseClient

inductive BaseAction
  /-- The call, up to the lookup in the cache. -/
  | offlinedeltaTure (c : Bool) (q : BaseQuery) (Local_Flag : Bool)
  | readFromCache (c : Bool)
  /-- What is done under `inContainerLck_`. -/
  | containerRegion (c : Bool)
  /-- The call, up to the lookup in the cache. -/
  | processDeltachunk (c : Bool)
  | readContent (c : Bool)
  | readIv (c : Bool)

def SharedBase.image (s : SharedBase) : ContainerPointer → ContainerBuffer
  | .tmpOcallcontainer => s.tmpOcallcontainer
  | .containerPool slot => s.InContainercache_.pool slot

def SharedBase.setClient (s : SharedBase) (c : Bool) (client : BaseClient) : SharedBase :=
  { s with client := Function.update s.client c client }

def BaseClient.container (client : BaseClient) : ContainerName :=
  client.query.basechunkAddr.containerName

/-- `none`: the file does not fit into the buffer. -/
def readFile (body : Bytes) (buffer : ContainerBuffer) : Option ContainerBuffer :=
  if h : body.length ≤ MAX_CONTAINER_SIZE then
    some ⟨memcpy buffer.val 0 body, by
      have hlen := buffer.property
      rw [memcpy_length body (Nat.zero_le _), hlen]
      omega⟩
  else none

variable (files : Table Path Bytes)

/-- `Ocall_getRefContainer` and the insertion. -/
def containerRegion (c : Bool) (s : SharedBase) : Option SharedBase :=
  let client := s.client c
  match files.lookup (false, client.container) with
  | none => some (s.setClient c { client with stage := .ready, deltaFlag := NO_DELTA })
  | some body =>
    (readFile body s.tmpOcallcontainer).bind fun buffer =>
      let s := { s with tmpOcallcontainer := buffer, readFor := some client.container }
      let client :=
        { client with
          stage := .loaded
          deltaFlag := DELTA
          containerbuffer := .tmpOcallcontainer }
      if InContainercache.ExistsInCache client.container s.InContainercache_ then
        some (s.setClient c client)
      else
        (InContainercache.InsertToCache_Offline client.container buffer s.InContainercache_).map
          fun cache =>
            { s with InContainercache_ := cache }.setClient c
              { client with inBasechunkHash := client.query.basechunkHash }

/-- `none`: the step is not the next one of the client, or the enclave fails in it. -/
def baseStep (s : SharedBase) : BaseAction → Option SharedBase
  | .offlinedeltaTure c q Local_Flag =>
    let client := { s.client c with query := q, deltaFlag := q.deltaFlag }
    if client.stage ≠ .ready then none
    else if neverDelta q.chunkHash then some (s.setClient c { client with deltaFlag := NO_DELTA })
    -- `Ocall_QueryOutBasechunk` leaves either this or `NO_DELTA`
    else if q.deltaFlag ≠ OUT_DELTA then some (s.setClient c client)
    else if Local_Flag then
      some (s.setClient c
        { client with
          deltaFlag := NO_DELTA
          offlineFlag := true
          batch_basemap := client.batch_basemap ++ [(q.basechunkHash, q.outChunkHash)] })
    else if InContainercache.ExistsInCache client.container s.InContainercache_ then
      some (s.setClient c { client with stage := .found })
    else some (s.setClient c { client with stage := .missed })
  | .readFromCache c =>
    let client := s.client c
    if client.stage = .found then
      -- the pointer to the slot, which is not copied
      (s.InContainercache_.index.lookup client.container).bind fun slot =>
        (InContainercache.ReadFromCache client.container s.InContainercache_).map fun r =>
          { s with InContainercache_ := r.2 }.setClient c
            { client with
              stage := .loaded
              deltaFlag := DELTA
              inBasechunkHash := client.query.basechunkHash
              containerbuffer := .containerPool slot }
    else none
  | .containerRegion c => if (s.client c).stage = .missed then containerRegion files c s else none
  | .processDeltachunk c =>
    let client := s.client c
    if client.stage = .loaded then
      if InContainercache.ExistsInCache client.container s.InContainercache_ then
        some (s.setClient c { client with stage := .checked })
      else some (s.setClient c { client with stage := .ready, deltaFlag := NO_DELTA })
    else none
  | .readContent c =>
    let client := s.client c
    if client.stage = .checked then
      some (s.setClient c
        { client with
          stage := .contentRead
          temp_chunkbuffer :=
            getChunkContent (s.image client.containerbuffer).val client.query.basechunkAddr })
    else none
  | .readIv c =>
    let client := s.client c
    if client.stage = .contentRead then
      some (s.setClient c
        { client with
          stage := .ready
          temp_iv := getChunkIV (s.image client.containerbuffer).val client.query.basechunkAddr })
    else none

/-- Both clients between two batches; the buffers hold anything. -/
def SharedBase.start (tmpOcallcontainer : ContainerBuffer) (pool : Nat → ContainerBuffer)
    (client : Bool → BaseClient) : SharedBase where
  tmpOcallcontainer := tmpOcallcontainer
  readFor := none
  InContainercache_ := InContainercache.start pool
  client c := { client c with stage := .ready }

/-- The buffer begins with the container. -/
def Shows (name : ContainerName) (buffer : ContainerBuffer) : Prop :=
  ∃ body, files.lookup (false, name) = some body ∧ buffer.val.take body.length = body

/-- `ProcessDeltachunk` reads the container that the client asks for. -/
def OwnImage (s : SharedBase) : BaseAction → Prop
  | .readContent c =>
    (s.client c).stage = .checked →
      Shows files (s.client c).container (s.image (s.client c).containerbuffer)
  | .readIv c =>
    (s.client c).stage = .contentRead →
      Shows files (s.client c).container (s.image (s.client c).containerbuffer)
  | _ => True

/-- The client has found the name of its container in the cache and has not read all of its base. -/
def BaseClient.Reading (client : BaseClient) : Prop :=
  client.stage = .checked ∨ client.stage = .contentRead

/-- What the locked region of a client overwrites. -/
def Overwrites (s : SharedBase) (c : Bool) : ContainerPointer → Prop
  | .tmpOcallcontainer => files.lookup (false, (s.client c).container) ≠ none
  | .containerPool slot =>
    files.lookup (false, (s.client c).container) ≠ none ∧
      InContainercache.ExistsInCache (s.client c).container s.InContainercache_ = false ∧
      s.InContainercache_.nextSlot = some slot

/-- What the pointer is to hold for the client. -/
def Points (s : SharedBase) (c : Bool) : ContainerPointer → Prop
  | .tmpOcallcontainer => s.readFor = some (s.client c).container
  | .containerPool slot => s.InContainercache_.index.lookup (s.client c).container = some slot

/-- The pointer of a client that finds the name in the cache is still that of its container, and a
locked region overwrites nothing that the other client is reading, or brings it the same container
again. -/
def Undisturbed (s : SharedBase) : BaseAction → Prop
  | .containerRegion c =>
    (s.client !c).Reading → Overwrites files s c (s.client !c).containerbuffer →
      (s.client c).container = (s.client !c).container
  | .processDeltachunk c =>
    InContainercache.ExistsInCache (s.client c).container s.InContainercache_ = true →
      Points s c (s.client c).containerbuffer
  | _ => True

instance (client : BaseClient) : Decidable client.Reading :=
  inferInstanceAs (Decidable (_ ∨ _))

instance (s : SharedBase) (c : Bool) (pointer : ContainerPointer) :
    Decidable (Overwrites files s c pointer) :=
  match pointer with
  | .tmpOcallcontainer => inferInstanceAs (Decidable (_ ≠ _))
  | .containerPool _ => inferInstanceAs (Decidable (_ ∧ _))

instance (s : SharedBase) (c : Bool) (pointer : ContainerPointer) :
    Decidable (Points s c pointer) :=
  match pointer with
  | .tmpOcallcontainer => inferInstanceAs (Decidable (_ = _))
  | .containerPool _ => inferInstanceAs (Decidable (_ = _))

instance (s : SharedBase) (a : BaseAction) : Decidable (Undisturbed files s a) :=
  match a with
  | .containerRegion _ => inferInstanceAs (Decidable (_ → _ → _))
  | .processDeltachunk _ => inferInstanceAs (Decidable (_ → _))
  | .offlinedeltaTure .. | .readFromCache _ | .readContent _ | .readIv _ => isTrue trivial

end Model

section Steps
variable {files : Table Path Bytes} {m : Nat} {s s' : SharedBase} {c : Bool}

/-- Every name in the cache stands for its container, and what a client holds is its own. -/
structure BaseSound (files : Table Path Bytes) (m : Nat) (s : SharedBase) : Prop where
  sound : s.InContainercache_.Sound m
  cacheSize : s.InContainercache_.cacheSize = s.InContainercache_.index.maxSize
  held : ∀ {name slot}, s.InContainercache_.index.lookup name = some slot →
    Shows files name (s.InContainercache_.pool slot)
  read : ∀ name, s.readFor = some name → Shows files name s.tmpOcallcontainer
  own : ∀ c, (s.client c).Reading →
    Shows files (s.client c).container (s.image (s.client c).containerbuffer)

theorem baseSound_start (tmpOcallcontainer : ContainerBuffer) (pool : Nat → ContainerBuffer)
    (client : Bool → BaseClient) : BaseSound files 0 (.start tmpOcallcontainer pool client) := by
  have hcaching := caching_start pool
  refine ⟨hcaching.sound, hcaching.cacheSize.trans hcaching.maxSize.symm, ?_, ?_, ?_⟩
  · intro name slot hslot
    cases hslot
  · intro name hname
    cases hname
  · rintro c (hstage | hstage)
    · cases hstage
    · cases hstage

theorem readFile_shows {name : ContainerName} {body : Bytes} {buffer buffer' : ContainerBuffer}
    (hbody : files.lookup (false, name) = some body) (h : readFile body buffer = some buffer') :
    Shows files name buffer' := by
  unfold readFile at h
  split at h
  · rw [← Option.some.inj h]
    exact ⟨body, hbody, memcpy_take _ _⟩
  · cases h

/-- A step of a client that leaves the memory alone. -/
theorem BaseSound.setClient (h : BaseSound files m s) {client : BaseClient}
    (hown : client.Reading → Shows files client.container (s.image client.containerbuffer)) :
    BaseSound files m (s.setClient c client) := by
  refine ⟨h.sound, h.cacheSize, h.held, h.read, ?_⟩
  intro c' hreading
  change Shows files ((s.setClient c client).client c').container
    (s.image ((s.setClient c client).client c').containerbuffer)
  unfold SharedBase.setClient at hreading ⊢
  dsimp only at hreading ⊢
  by_cases hc : c' = c
  · rw [hc, Function.update_self] at hreading ⊢
    exact hown hreading
  · rw [Function.update_of_ne hc] at hreading ⊢
    exact h.own c' hreading

/-- The client does not read next. -/
theorem BaseSound.release (h : BaseSound files m s) {client : BaseClient}
    (hstage : ¬client.Reading) : BaseSound files m (s.setClient c client) :=
  h.setClient fun hreading => absurd hreading hstage

/-- What a locked region does. -/
theorem containerRegion_some (hs : containerRegion files c s = some s') :
    (files.lookup (false, (s.client c).container) = none ∧
        s' = s.setClient c { s.client c with stage := .ready, deltaFlag := NO_DELTA }) ∨
      ∃ body buffer cache client,
        files.lookup (false, (s.client c).container) = some body ∧
        readFile body s.tmpOcallcontainer = some buffer ∧
        s' = { s with
          tmpOcallcontainer := buffer
          readFor := some (s.client c).container
          InContainercache_ := cache }.setClient c client ∧
        client.stage = .loaded ∧ client.container = (s.client c).container ∧
        client.containerbuffer = .tmpOcallcontainer ∧
        (cache = s.InContainercache_ ∨
          InContainercache.ExistsInCache (s.client c).container s.InContainercache_ = false ∧
            InContainercache.InsertToCache_Offline (s.client c).container buffer
              s.InContainercache_ = some cache) := by
  unfold containerRegion at hs
  dsimp only at hs
  cases hbody : files.lookup (false, (s.client c).container) with
  | none =>
    rw [hbody] at hs
    exact Or.inl ⟨rfl, (Option.some.inj hs).symm⟩
  | some body =>
    rw [hbody] at hs
    obtain ⟨buffer, hread, hs⟩ := Option.bind_eq_some_iff.mp hs
    right
    split at hs
    · exact ⟨body, buffer, _, _, rfl, hread, (Option.some.inj hs).symm, rfl, rfl, rfl, Or.inl rfl⟩
    case isFalse hexists =>
      obtain ⟨cache, hinsert, heq⟩ := Option.map_eq_some_iff.mp hs
      exact ⟨body, buffer, cache, _, rfl, hread, heq.symm, rfl, rfl, rfl,
        Or.inr ⟨Bool.not_eq_true _ ▸ hexists, hinsert⟩⟩

/-- The cache after a locked region. -/
theorem BaseSound.cache (h : BaseSound files m s) {buffer : ContainerBuffer}
    {cache : InContainercache} (hfile : files.lookup (false, (s.client c).container) ≠ none)
    (hshows : Shows files (s.client c).container buffer)
    (hcache : cache = s.InContainercache_ ∨
      InContainercache.ExistsInCache (s.client c).container s.InContainercache_ = false ∧
        InContainercache.InsertToCache_Offline (s.client c).container buffer
          s.InContainercache_ = some cache) :
    ∃ m', cache.Sound m' ∧ cache.cacheSize = cache.index.maxSize ∧
      (∀ {name slot}, cache.index.lookup name = some slot → Shows files name (cache.pool slot)) ∧
      ∀ slot, cache.pool slot = s.InContainercache_.pool slot ∨
        cache.pool slot = buffer ∧ Overwrites files s c (.containerPool slot) := by
  rcases hcache with heq | ⟨hexists, hinsert⟩
  · rw [heq]
    exact ⟨m, h.sound, h.cacheSize, h.held, fun slot => Or.inl rfl⟩
  · obtain ⟨cache', hcache, hsound, hnew⟩ :=
      h.sound.insertTo hexists (Or.inl h.cacheSize) fun _ => buffer
    have heq : cache' = cache := Option.some.inj (hcache.symm.trans hinsert)
    rw [heq] at hsound hnew
    refine ⟨m + 1, hsound, hnew.cacheSize.trans (h.cacheSize.trans hnew.maxSize.symm), ?_, ?_⟩
    · intro name' slot hslot
      rcases hnew.held hslot with ⟨hname, _, hd⟩ | ⟨hold, hpool⟩
      · rw [hname, hd]
        exact hshows
      · rw [hpool]
        exact h.held hold
    · intro slot
      obtain ⟨next, hnext, hpool⟩ := SlotCache.insertTo_pool hinsert
      rw [hpool]
      by_cases hslot : slot = next
      · rw [hslot, Function.update_self]
        exact Or.inr ⟨rfl, hfile, hexists, hnext⟩
      · rw [Function.update_of_ne hslot]
        exact Or.inl rfl

/-- The locked region keeps what the other client holds. -/
theorem BaseSound.region (h : BaseSound files m s) (hok : Undisturbed files s (.containerRegion c))
    (hs : containerRegion files c s = some s') : ∃ m', BaseSound files m' s' := by
  rcases containerRegion_some hs with
    ⟨_, heq⟩ | ⟨body, buffer, cache, client, hbody, hread, heq, hstage, _, _, hcache⟩
  · refine ⟨m, ?_⟩
    rw [heq]
    exact h.release (by rintro (hstage | hstage) <;> cases hstage)
  · have hshows := readFile_shows hbody hread
    have hfile : files.lookup (false, (s.client c).container) ≠ none := by
      rw [hbody]
      exact Option.some_ne_none _
    obtain ⟨m', hsound, hsize, hheld, hpool⟩ := h.cache hfile hshows hcache
    refine ⟨m', ?_⟩
    rw [heq]
    unfold SharedBase.setClient
    refine ⟨hsound, hsize, hheld, ?_, ?_⟩
    · intro name hname
      rw [← Option.some.inj hname]
      exact hshows
    intro c' hreading
    dsimp only at hreading ⊢
    by_cases hc : c' = c
    · exfalso
      rw [hc, Function.update_self] at hreading
      rcases hreading with hnow | hnow
      · rw [hstage] at hnow
        cases hnow
      · rw [hstage] at hnow
        cases hnow
    · have hc' : c' = !c := by
        cases c' <;> cases c <;> first | rfl | exact absurd rfl hc
      rw [Function.update_of_ne hc] at hreading ⊢
      rw [hc'] at hreading ⊢
      have hown := h.own (!c) hreading
      have hsame := hok hreading
      unfold SharedBase.image at hown ⊢
      generalize (s.client !c).containerbuffer = pointer at hown hsame ⊢
      cases pointer with
      | tmpOcallcontainer =>
        rw [← hsame hfile]
        exact hshows
      | containerPool slot =>
        dsimp only at hown ⊢
        rcases hpool slot with hkept | ⟨hnew, hover⟩
        · rw [hkept]
          exact hown
        · rw [hnew, ← hsame hover]
          exact hshows

/-- A read from the cache. -/
theorem BaseSound.readFromCache (h : BaseSound files m s) {name : ContainerName} {slot : Nat}
    {r : ContainerBuffer × InContainercache}
    (hslot : s.InContainercache_.index.lookup name = some slot)
    (hr : InContainercache.ReadFromCache name s.InContainercache_ = some r) :
    BaseSound files m { s with InContainercache_ := r.2 } := by
  obtain ⟨cache, hread, hsound, hsize, hindex, hpool⟩ := h.sound.readFrom hslot
  have heq : (s.InContainercache_.pool slot, cache) = r := Option.some.inj (hread.symm.trans hr)
  rw [← heq]
  dsimp only
  refine ⟨hsound, ?_, ?_, h.read, ?_⟩
  · dsimp only
    rw [hsize, hindex]
    exact h.cacheSize
  · intro name' slot' hslot'
    dsimp only at hslot' ⊢
    rw [hindex, Lru.lookup_splice hslot] at hslot'
    rw [hpool]
    exact h.held hslot'
  · intro c' hreading
    have hown := h.own c' hreading
    unfold SharedBase.image at hown ⊢
    dsimp only at hown ⊢
    rw [hpool]
    exact hown

/-- A pointer that is still that of the container. -/
theorem BaseSound.pointed (h : BaseSound files m s)
    (hpointer : Points s c (s.client c).containerbuffer) :
    Shows files (s.client c).container (s.image (s.client c).containerbuffer) := by
  unfold SharedBase.image
  generalize (s.client c).containerbuffer = pointer at hpointer ⊢
  cases pointer with
  | tmpOcallcontainer => exact h.read _ hpointer
  | containerPool slot => exact h.held hpointer

/-- A step that meets the condition keeps all this. -/
theorem BaseSound.step {a : BaseAction} (h : ∃ m, BaseSound files m s) (hok : Undisturbed files s a)
    (hs : baseStep files s a = some s') : ∃ m, BaseSound files m s' := by
  obtain ⟨m, h⟩ := h
  unfold baseStep at hs
  cases a with
  | offlinedeltaTure c q Local_Flag =>
    refine ⟨m, ?_⟩
    dsimp only at hs
    by_cases hready : (s.client c).stage ≠ .ready
    · rw [if_pos hready] at hs
      cases hs
    · rw [if_neg hready] at hs
      have hstage : (s.client c).stage = .ready := not_not.mp hready
      repeat' split at hs
      all_goals
        rw [← Option.some.inj hs]
        apply h.release
        rintro (hnow | hnow)
        all_goals
          dsimp only at hnow
          first
          | cases hnow
          | rw [hstage] at hnow
            cases hnow
  | readFromCache c =>
    dsimp only at hs
    split at hs
    case isFalse => cases hs
    case isTrue =>
      obtain ⟨slot, hslot, hs⟩ := Option.bind_eq_some_iff.mp hs
      obtain ⟨r, hr, heq⟩ := Option.map_eq_some_iff.mp hs
      refine ⟨m, ?_⟩
      rw [← heq]
      exact (h.readFromCache hslot hr).release (by rintro (hnow | hnow) <;> cases hnow)
  | containerRegion c =>
    dsimp only at hs
    split at hs
    case isFalse => cases hs
    case isTrue => exact h.region hok hs
  | processDeltachunk c =>
    refine ⟨m, ?_⟩
    dsimp only at hs
    split at hs
    case isFalse => cases hs
    case isTrue =>
      split at hs
      case isTrue hexists =>
        rw [← Option.some.inj hs]
        exact h.setClient fun _ => h.pointed (hok hexists)
      case isFalse =>
        rw [← Option.some.inj hs]
        exact h.release (by rintro (hnow | hnow) <;> cases hnow)
  | readContent c =>
    refine ⟨m, ?_⟩
    dsimp only at hs
    split at hs
    case isFalse => cases hs
    case isTrue hstage =>
      rw [← Option.some.inj hs]
      exact h.setClient fun _ => h.own c (Or.inl hstage)
  | readIv c =>
    refine ⟨m, ?_⟩
    dsimp only at hs
    split at hs
    case isFalse => cases hs
    case isTrue hstage =>
      rw [← Option.some.inj hs]
      exact h.release (by rintro (hnow | hnow) <;> cases hnow)

theorem BaseSound.ownImage (h : BaseSound files m s) (a : BaseAction) : OwnImage files s a := by
  cases a with
  | readContent c => exact fun hstage => h.own c (Or.inl hstage)
  | readIv c => exact fun hstage => h.own c (Or.inr hstage)
  | offlinedeltaTure | readFromCache | containerRegion | processDeltachunk => trivial

end Steps

section OwnImage

/-- Where every step meets the condition, each client reads the container that it asks for. -/
theorem base_image_own (files : Table Path Bytes) (tmpOcallcontainer : ContainerBuffer)
    (pool : Nat → ContainerBuffer) (client : Bool → BaseClient) {acts : List BaseAction}
    (hmeet : StepsMeet (baseStep files) (Undisturbed files)
      (.start tmpOcallcontainer pool client) acts) :
    StepsMeet (baseStep files) (OwnImage files) (.start tmpOcallcontainer pool client) acts := by
  apply hmeet.of_preserve BaseSound.step
  · intro s a hsound _
    obtain ⟨m, h⟩ := hsound
    exact h.ownImage a
  · exact ⟨0, baseSound_start _ _ _⟩

/-- The query of a chunk with a base in the container. -/
def baseQuery (b : Bool) : BaseQuery where
  chunkHash := FixedBytes.fill 32 0
  deltaFlag := OUT_DELTA
  basechunkHash := FixedBytes.fill 32 1
  outChunkHash := FixedBytes.fill 32 0
  basechunkAddr := { emptyEntry with containerName := slotName b }

def idleBases : SharedBase :=
  .start (FixedBytes.fill MAX_CONTAINER_SIZE 0) (fun _ => FixedBytes.fill MAX_CONTAINER_SIZE 0)
    fun _ =>
      { stage := .ready
        query := baseQuery false
        deltaFlag := NO_DELTA
        offlineFlag := false
        inBasechunkHash := FixedBytes.fill 32 0
        containerbuffer := .tmpOcallcontainer
        batch_basemap := []
        temp_chunkbuffer := []
        temp_iv := FixedBytes.fill 16 0 }

/-- The clients read two containers one after the other, the second client while the first one is
between its calls with the same container. -/
theorem base_image_own_turns : ∃ s,
    runs (baseStep slotFiles) idleBases
      [.offlinedeltaTure false (baseQuery false) false, .containerRegion false,
        .processDeltachunk false, .readContent false, .readIv false,
        .offlinedeltaTure false (baseQuery false) false, .readFromCache false,
        .offlinedeltaTure true (baseQuery true) false, .containerRegion true,
        .processDeltachunk false, .readContent false, .processDeltachunk true, .readContent true,
        .readIv false, .readIv true] = some s ∧
    StepsMeet (baseStep slotFiles) (OwnImage slotFiles) idleBases
      [.offlinedeltaTure false (baseQuery false) false, .containerRegion false,
        .processDeltachunk false, .readContent false, .readIv false,
        .offlinedeltaTure false (baseQuery false) false, .readFromCache false,
        .offlinedeltaTure true (baseQuery true) false, .containerRegion true,
        .processDeltachunk false, .readContent false, .processDeltachunk true, .readContent true,
        .readIv false, .readIv true] := by
  have hsome : (runs (baseStep slotFiles) idleBases
      [.offlinedeltaTure false (baseQuery false) false, .containerRegion false,
        .processDeltachunk false, .readContent false, .readIv false,
        .offlinedeltaTure false (baseQuery false) false, .readFromCache false,
        .offlinedeltaTure true (baseQuery true) false, .containerRegion true,
        .processDeltachunk false, .readContent false, .processDeltachunk true, .readContent true,
        .readIv false, .readIv true]).isSome = true := by
    decide +kernel
  obtain ⟨s, hs⟩ := Option.isSome_iff_exists.mp hsome
  exact ⟨s, hs, base_image_own slotFiles _ _ _ (by decide +kernel)⟩

/-- The second client reads its container between the two calls of the first. -/
def crossing : List BaseAction :=
  [.offlinedeltaTure false (baseQuery false) false, .containerRegion false,
    .offlinedeltaTure true (baseQuery true) false, .containerRegion true,
    .processDeltachunk false]

/-- The first client goes on with the container of the second. -/
theorem base_image_crossed : ∃ s,
    runs (baseStep slotFiles) idleBases crossing = some s ∧
    slotFiles.lookup (false, (s.client false).container) = some [1] ∧
    (s.image (s.client false).containerbuffer).val.take 1 = [2] ∧
    ¬StepsMeet (baseStep slotFiles) (OwnImage slotFiles) idleBases
      (crossing ++ [.readContent false]) := by
  have hrun : ((runs (baseStep slotFiles) idleBases crossing).map fun s =>
      (decide ((s.client false).stage = .checked),
        slotFiles.lookup (false, (s.client false).container),
        (s.image (s.client false).containerbuffer).val.take 1)) =
      some (true, some [1], [2]) := by
    decide +kernel
  obtain ⟨s, hs, heq⟩ := Option.map_eq_some_iff.mp hrun
  simp only [Prod.mk.injEq, decide_eq_true_eq] at heq
  obtain ⟨hstage, hbody, himage⟩ := heq
  refine ⟨s, hs, hbody, himage, ?_⟩
  intro hmeet
  obtain ⟨body, hown, hshows⟩ := StepsMeet.mid hmeet hs hstage
  rw [← Option.some.inj (hbody.symm.trans hown)] at hshows
  rw [List.length_singleton, himage] at hshows
  exact absurd hshows (by decide)

end OwnImage

end ShieldReduce.MultiClient
