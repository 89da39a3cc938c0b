import ShieldReduce.Lib.SlotCache
import ShieldReduce.Prototype.InvariantPass
import ShieldReduce.Prototype.Writers

/-!
# The container caches

`ReadCache` of a restore with `EnclaveRecvDecoder::GetReqContainers`, and the `InContainercache` of
the enclave.
-/

namespace ShieldReduce.Prototype
open Lib Store EDelta

section ReadCache

abbrev ReadCache : Type := SlotCache ContainerName Bytes

/-- `trueCache_` has 64 entries, `containerPool_` as many slots as configured; `pool` is what the
allocated memory held. -/
def ReadCache.start (readCacheSize : Nat) (pool : Nat → Bytes) : ReadCache where
  cacheSize := readCacheSize
  index := ⟨64, 0, []⟩
  pool := pool
  currentIndex := 0

def ReadCache.InsertToCache (name : ContainerName) (data : Bytes) (length : Nat) (c : ReadCache) :
    Option ReadCache :=
  c.insertTo name fun slot => memcpy slot 0 (data.take length)

def ReadCache.ExistsInCache (name : ContainerName) (c : ReadCache) : Bool := c.existsIn name

def ReadCache.ReadFromCache (name : ContainerName) (c : ReadCache) : Option (Bytes × ReadCache) :=
  c.readFrom name

structure ReqContainer where
  containerCache : ReadCache
  containerArray : Nat → Bytes

variable (files : Table Path Bytes)

/-- `none`: there is no such container and the server exits, or the cache has left its pool. -/
def getReqContainer (i : Nat) (name : ContainerName) (st : ReqContainer) : Option ReqContainer :=
  if ReadCache.ExistsInCache name st.containerCache then
    (ReadCache.ReadFromCache name st.containerCache).map fun r =>
      { containerCache := r.2
        containerArray := Function.update st.containerArray i
          (memcpy (st.containerArray i) 0 (r.1.take MAX_CONTAINER_SIZE)) }
  else
    (reqContainer files name).bind fun body =>
      let containerData := memcpy (st.containerArray i) 0 body
      (ReadCache.InsertToCache name containerData body.length st.containerCache).map fun c =>
        { containerCache := c
          containerArray := Function.update st.containerArray i containerData }

/-- The loop of `GetReqContainers` from the `i`-th identifier on. -/
def getReqContainersFrom : Nat → List ContainerName → ReqContainer → Option ReqContainer
  | _, [], st => some st
  | i, name :: names, st =>
    (getReqContainer files i name st).bind fun st => getReqContainersFrom (i + 1) names st

def GetReqContainers (idBuffer : List ContainerName) (st : ReqContainer) : Option ReqContainer :=
  getReqContainersFrom files 0 idBuffer st

def getReqContainersCalls : List (List ContainerName) → ReqContainer → Option ReqContainer
  | [], st => some st
  | idBuffer :: calls, st =>
    (GetReqContainers files idBuffer st).bind fun st => getReqContainersCalls calls st

/-- How many of the names are not among the `cap` latest when they are asked for. -/
def misses {K : Type} [DecidableEq K] (cap : Nat) : List K → List K → Nat
  | _, [] => 0
  | seen, x :: xs => (if x ∈ (recency seen).take cap then 0 else 1) + misses cap (seen ++ [x]) xs

/-- The `i`-th buffer begins with the `i`-th container. -/
def Served (idBuffer : List ContainerName) (containerArray : Nat → Bytes) : Prop :=
  ∀ i name, idBuffer[i]? = some name → ∃ body, reqContainer files name = some body ∧
    (containerArray i).take body.length = body

end ReadCache

section Reading
variable {files : Table Path Bytes} {readCacheSize m : Nat} {seen : List ContainerName}
  {c : ReadCache}

/-- The cache after requests for `seen`, of which `m` were not in it. -/
structure Reading (files : Table Path Bytes) (readCacheSize : Nat) (seen : List ContainerName)
    (m : Nat) (c : ReadCache) : Prop where
  sound : c.Sound m
  cacheSize : c.cacheSize = readCacheSize
  maxSize : c.index.maxSize = 64
  names : c.index.names = (recency seen).take 64
  held : ∀ {name slot}, c.index.lookup name = some slot →
    ∃ body, reqContainer files name = some body ∧ (c.pool slot).take body.length = body

theorem startOk : Lru.Ok (⟨64, 0, []⟩ : Lru ContainerName Nat) :=
  ⟨by decide, rfl, Nat.zero_le _, List.nodup_nil⟩

theorem reading_start (readCacheSize : Nat) (pool : Nat → Bytes) :
    Reading files readCacheSize [] 0 (ReadCache.start readCacheSize pool) := by
  refine ⟨⟨startOk, List.nodup_nil, ?_, (Nat.zero_min _).symm, (Nat.zero_min _).symm⟩, rfl, rfl,
    rfl, ?_⟩
  · intro slot hslot
    cases hslot
  · intro name slot hslot
    cases hslot

theorem Reading.exists_iff (h : Reading files readCacheSize seen m c) (name : ContainerName) :
    ReadCache.ExistsInCache name c = true ↔ name ∈ (recency seen).take 64 := by
  rw [← h.names]
  exact Lru.contains_iff

theorem memcpy_take (buf src : Bytes) : (memcpy buf 0 src).take src.length = src := by
  unfold memcpy
  rw [List.take_zero, List.nil_append, List.take_left']
  rfl

/-- A hit copies a whole slot, which begins with the container. -/
theorem memcpy_slot {buf slot body : Bytes} (hfits : body.length ≤ MAX_CONTAINER_SIZE)
    (hslot : slot.take body.length = body) :
    (memcpy buf 0 (slot.take MAX_CONTAINER_SIZE)).take body.length = body := by
  have hlen : body.length ≤ (slot.take MAX_CONTAINER_SIZE).length := by
    have hle : body.length ≤ slot.length := by
      rw [← hslot, List.length_take]
      exact Nat.min_le_right ..
    rw [List.length_take]
    omega
  unfold memcpy
  rw [List.take_zero, List.nil_append, List.take_append_of_le_length hlen, List.take_take,
    Nat.min_eq_left hfits, hslot]

/-- A request for a container in the cache. -/
theorem Reading.hit (h : Reading files readCacheSize seen m c) {name : ContainerName}
    (hname : name ∈ (recency seen).take 64) :
    ∃ body slot c', reqContainer files name = some body ∧
      ReadCache.ReadFromCache name c = some (slot, c') ∧ slot.take body.length = body ∧
      Reading files readCacheSize (seen ++ [name]) m c' := by
  have hexists := (h.exists_iff name).mpr hname
  obtain ⟨slot, hslot⟩ := Option.isSome_iff_exists.mp hexists
  obtain ⟨body, hbody, htake⟩ := h.held hslot
  obtain ⟨c', hread, hsound, hsize, hindex, hpool⟩ := h.sound.readFrom hslot
  refine ⟨body, c.pool slot, c', hbody, hread, htake, hsound, hsize.trans h.cacheSize, ?_, ?_, ?_⟩
  · rw [hindex]
    exact h.maxSize
  · rw [hindex]
    exact Lru.names_touch h.names hslot
  · intro name' slot' hslot'
    rw [hindex, Lru.lookup_splice hslot] at hslot'
    rw [hpool]
    exact h.held hslot'

/-- A request for a container that is read from its file. -/
theorem Reading.miss (h : Reading files readCacheSize seen m c) {name : ContainerName}
    (hname : name ∉ (recency seen).take 64) {body data : Bytes}
    (hbody : reqContainer files name = some body) (hdata : data.take body.length = body)
    (hroom : readCacheSize = 64 ∨ m + 1 ≤ readCacheSize) :
    ∃ c', ReadCache.InsertToCache name data body.length c = some c' ∧
      Reading files readCacheSize (seen ++ [name]) (m + 1) c' := by
  have hexists : c.existsIn name = false := by
    rw [← Bool.not_eq_true]
    exact fun hmem => hname ((h.exists_iff name).mp hmem)
  have hroom' : c.cacheSize = c.index.maxSize ∨ m < c.cacheSize := by
    rw [h.cacheSize, h.maxSize]
    exact hroom
  obtain ⟨c', hinsert, hsound, hnew⟩ := h.sound.insertTo hexists hroom'
    fun slot => memcpy slot 0 (data.take body.length)
  refine ⟨c', hinsert, hsound, hnew.cacheSize.trans h.cacheSize, hnew.maxSize.trans h.maxSize,
    ?_, ?_⟩
  · rw [hnew.names, h.maxSize, h.names, recency_snoc, take_push hname]
  · intro name' slot hslot
    rcases hnew.held hslot with ⟨rfl, d, hd⟩ | ⟨hold, hpool⟩
    · refine ⟨body, hbody, ?_⟩
      rw [hd, hdata, memcpy_take]
    · rw [hpool]
      exact h.held hold

/-- What one request adds to the misses. -/
def missed (cap : Nat) (seen : List ContainerName) (name : ContainerName) : Nat :=
  if name ∈ (recency seen).take cap then 0 else 1

theorem getReqContainer_reading (hfits : ∀ name body, reqContainer files name = some body →
      body.length ≤ MAX_CONTAINER_SIZE) {st : ReqContainer}
    (h : Reading files readCacheSize seen m st.containerCache) {name : ContainerName}
    {body : Bytes} (hbody : reqContainer files name = some body)
    (hroom : readCacheSize = 64 ∨ m + missed 64 seen name ≤ readCacheSize) (i : Nat) :
    ∃ st', getReqContainer files i name st = some st' ∧
      Reading files readCacheSize (seen ++ [name]) (m + missed 64 seen name) st'.containerCache ∧
      (st'.containerArray i).take body.length = body ∧
      ∀ j, j ≠ i → st'.containerArray j = st.containerArray j := by
  unfold missed at hroom ⊢
  by_cases hname : name ∈ (recency seen).take 64
  · obtain ⟨body', slot, c', hbody', hread, htake, hc'⟩ := h.hit hname
    obtain rfl : body = body' := Option.some.inj (hbody.symm.trans hbody')
    refine ⟨⟨c', Function.update st.containerArray i
      (memcpy (st.containerArray i) 0 (slot.take MAX_CONTAINER_SIZE))⟩, ?_, ?_, ?_, ?_⟩
    · unfold getReqContainer
      rw [if_pos ((h.exists_iff name).mpr hname), hread]
      rfl
    · rw [if_pos hname]
      exact hc'
    · dsimp only
      rw [Function.update_self]
      exact memcpy_slot (hfits name body hbody) htake
    · intro j hj
      exact Function.update_of_ne hj _ _
  · rw [if_neg hname] at hroom ⊢
    obtain ⟨c', hinsert, hc'⟩ := h.miss hname hbody (memcpy_take (st.containerArray i) body) hroom
    refine ⟨⟨c', Function.update st.containerArray i (memcpy (st.containerArray i) 0 body)⟩,
      ?_, hc', ?_, ?_⟩
    · unfold getReqContainer
      rw [if_neg (fun hmem => hname ((h.exists_iff name).mp hmem)), hbody]
      dsimp only [Option.bind_some]
      rw [hinsert]
      rfl
    · dsimp only
      rw [Function.update_self, memcpy_take]
    · intro j hj
      exact Function.update_of_ne hj _ _

theorem misses_cons (cap : Nat) (seen : List ContainerName) (name : ContainerName)
    (names : List ContainerName) :
    misses cap seen (name :: names) = missed cap seen name + misses cap (seen ++ [name]) names := rfl

theorem misses_append (cap : Nat) (seen names names' : List ContainerName) :
    misses cap seen (names ++ names') =
      misses cap seen names + misses cap (seen ++ names) names' := by
  induction names generalizing seen with
  | nil => simp [misses]
  | cons name names ih =>
    rw [List.cons_append, misses_cons, misses_cons, ih, List.append_assoc, Nat.add_assoc]
    rfl

/-- One call, from its `i`-th identifier on. -/
theorem getReqContainersFrom_reading (hfits : ∀ name body, reqContainer files name = some body →
      body.length ≤ MAX_CONTAINER_SIZE) {names : List ContainerName} {st : ReqContainer}
    (h : Reading files readCacheSize seen m st.containerCache)
    (hpresent : ∀ name ∈ names, reqContainer files name ≠ none)
    (hroom : readCacheSize = 64 ∨ m + misses 64 seen names ≤ readCacheSize) (i : Nat) :
    ∃ st', getReqContainersFrom files i names st = some st' ∧
      Reading files readCacheSize (seen ++ names) (m + misses 64 seen names) st'.containerCache ∧
      Served files names (fun j => st'.containerArray (i + j)) ∧
      ∀ j, j < i → st'.containerArray j = st.containerArray j := by
  induction names generalizing seen m st i with
  | nil =>
    refine ⟨st, rfl, ?_, ?_, fun j _ => rfl⟩
    · rw [List.append_nil]
      exact h
    · intro j name hj
      simp at hj
  | cons name names ih =>
    rw [misses_cons, ← Nat.add_assoc] at hroom ⊢
    obtain ⟨body, hbody⟩ := Option.ne_none_iff_exists'.mp (hpresent name List.mem_cons_self)
    obtain ⟨st₁, hst₁, h₁, htake, hframe₁⟩ :=
      getReqContainer_reading hfits h hbody (hroom.imp_right (by omega)) i
    obtain ⟨st₂, hst₂, h₂, hserved, hframe₂⟩ := ih h₁
      (fun name' hname' => hpresent name' (List.mem_cons_of_mem name hname')) hroom (i + 1)
    refine ⟨st₂, ?_, ?_, ?_, ?_⟩
    · unfold getReqContainersFrom
      rw [hst₁]
      exact hst₂
    · rw [List.append_assoc] at h₂
      exact h₂
    · intro j name' hj
      cases j with
      | zero =>
        obtain rfl : name = name' := by simpa using hj
        refine ⟨body, hbody, ?_⟩
        dsimp only
        rw [hframe₂ _ (by omega)]
        exact htake
      | succ j =>
        rw [List.getElem?_cons_succ] at hj
        obtain ⟨body', hbody', hlater⟩ := hserved j name' hj
        dsimp only at hlater
        rw [show i + 1 + j = i + (j + 1) by omega] at hlater
        exact ⟨body', hbody', hlater⟩
    · intro j hj
      rw [hframe₂ j (by omega), hframe₁ j (by omega)]

theorem getReqContainersCalls_reading (hfits : ∀ name body, reqContainer files name = some body →
      body.length ≤ MAX_CONTAINER_SIZE) {calls : List (List ContainerName)} {st : ReqContainer}
    (h : Reading files readCacheSize seen m st.containerCache)
    (hpresent : ∀ name ∈ calls.flatten, reqContainer files name ≠ none)
    (hroom : readCacheSize = 64 ∨ m + misses 64 seen calls.flatten ≤ readCacheSize) :
    ∃ st', getReqContainersCalls files calls st = some st' ∧
      Reading files readCacheSize (seen ++ calls.flatten) (m + misses 64 seen calls.flatten)
        st'.containerCache := by
  induction calls generalizing seen m st with
  | nil =>
    refine ⟨st, rfl, ?_⟩
    rw [List.flatten_nil, List.append_nil]
    exact h
  | cons names calls ih =>
    rw [List.flatten_cons] at hpresent hroom ⊢
    rw [misses_append, ← Nat.add_assoc] at hroom ⊢
    obtain ⟨st₁, hst₁, h₁, -, -⟩ := getReqContainersFrom_reading hfits h
      (fun name hname => hpresent name (List.mem_append_left _ hname))
      (hroom.imp_right (by omega)) 0
    obtain ⟨st₂, hst₂, h₂⟩ := ih h₁
      (fun name hname => hpresent name (List.mem_append_right _ hname)) hroom
    refine ⟨st₂, ?_, ?_⟩
    · unfold getReqContainersCalls GetReqContainers
      rw [hst₁]
      exact hst₂
    · rw [List.append_assoc] at h₂
      exact h₂

end Reading

section Requested
variable {files : Table Path Bytes} {readCacheSize m : Nat} {seen : List ContainerName}

/-- What every run leaves, whatever the size of the pool is. -/
structure Requested (readCacheSize : Nat) (seen : List ContainerName) (m : Nat) (c : ReadCache) :
    Prop where
  tracked : c.Tracked m
  cacheSize : c.cacheSize = readCacheSize
  maxSize : c.index.maxSize = 64
  names : c.index.names = (recency seen).take 64

theorem requested_start (readCacheSize : Nat) (pool : Nat → Bytes) :
    Requested readCacheSize [] 0 (ReadCache.start readCacheSize pool) := by
  refine ⟨⟨startOk, ?_, Nat.zero_le _, fun _ => rfl, (Nat.zero_min _).symm⟩, rfl, rfl, rfl⟩
  intro slot hslot
  cases hslot

theorem getReqContainer_requested {st st' : ReqContainer}
    (h : Requested readCacheSize seen m st.containerCache) {name : ContainerName} {i : Nat}
    (hst' : getReqContainer files i name st = some st') :
    Requested readCacheSize (seen ++ [name]) (m + missed 64 seen name) st'.containerCache := by
  unfold getReqContainer at hst'
  have hexists : ReadCache.ExistsInCache name st.containerCache = true ↔
      name ∈ (recency seen).take 64 := by
    rw [← h.names]
    exact Lru.contains_iff
  unfold missed
  by_cases hname : name ∈ (recency seen).take 64
  · rw [if_pos (hexists.mpr hname)] at hst'
    obtain ⟨r, hr, rfl⟩ := Option.map_eq_some_iff.mp hst'
    obtain ⟨htracked, hsize, hmax, slot, hslot, hindex⟩ := h.tracked.readFrom hr
    rw [if_pos hname]
    refine ⟨htracked, hsize.trans h.cacheSize, hmax.trans h.maxSize, ?_⟩
    dsimp only
    rw [hindex]
    exact Lru.names_touch h.names hslot
  · have hnot : ReadCache.ExistsInCache name st.containerCache = false := by
      rw [← Bool.not_eq_true]
      exact fun hmem => hname (hexists.mp hmem)
    rw [if_neg (by simp [hnot])] at hst'
    obtain ⟨body, -, hst'⟩ := Option.bind_eq_some_iff.mp hst'
    obtain ⟨c', hc', rfl⟩ := Option.map_eq_some_iff.mp hst'
    obtain ⟨htracked, hsize, hmax, hnames⟩ := h.tracked.insertTo hnot hc'
    rw [if_neg hname]
    refine ⟨htracked, hsize.trans h.cacheSize, hmax.trans h.maxSize, ?_⟩
    dsimp only
    rw [hnames, h.maxSize, h.names, recency_snoc, take_push hname]

theorem getReqContainersFrom_requested {names : List ContainerName} {st st' : ReqContainer}
    (h : Requested readCacheSize seen m st.containerCache) {i : Nat}
    (hst' : getReqContainersFrom files i names st = some st') :
    Requested readCacheSize (seen ++ names) (m + misses 64 seen names) st'.containerCache := by
  induction names generalizing seen m st i with
  | nil =>
    obtain rfl := Option.some.inj hst'
    rw [List.append_nil]
    exact h
  | cons name names ih =>
    obtain ⟨st₁, hst₁, hrest⟩ := Option.bind_eq_some_iff.mp hst'
    have h₂ := ih (getReqContainer_requested h hst₁) hrest
    rw [misses_cons, ← Nat.add_assoc]
    rwa [List.append_assoc] at h₂

theorem getReqContainersCalls_requested {calls : List (List ContainerName)}
    {st st' : ReqContainer} (h : Requested readCacheSize seen m st.containerCache)
    (hst' : getReqContainersCalls files calls st = some st') :
    Requested readCacheSize (seen ++ calls.flatten) (m + misses 64 seen calls.flatten)
      st'.containerCache := by
  induction calls generalizing seen m st with
  | nil =>
    obtain rfl := Option.some.inj hst'
    rw [List.flatten_nil, List.append_nil]
    exact h
  | cons names calls ih =>
    obtain ⟨st₁, hst₁, hrest⟩ := Option.bind_eq_some_iff.mp hst'
    have h₂ := ih (getReqContainersFrom_requested h hst₁) hrest
    rw [List.flatten_cons, misses_append, ← Nat.add_assoc]
    rwa [List.append_assoc] at h₂

end Requested

section ReadCacheRight

/-- The cache gives different containers different slots of its pool, and the last call has got the
containers it asked for. -/
structure ReadCacheRight (files : Table Path Bytes) (readCacheSize : Nat)
    (idBuffer : List ContainerName) (st : ReqContainer) : Prop where
  distinct : ∀ {name name' slot}, st.containerCache.index.lookup name = some slot →
    st.containerCache.index.lookup name' = some slot → name = name'
  below : ∀ {name slot}, st.containerCache.index.lookup name = some slot → slot < readCacheSize
  served : Served files idBuffer st.containerArray

theorem getReqContainersCalls_snoc (files : Table Path Bytes)
    (calls : List (List ContainerName)) (idBuffer : List ContainerName) (st : ReqContainer) :
    getReqContainersCalls files (calls ++ [idBuffer]) st =
      (getReqContainersCalls files calls st).bind (GetReqContainers files idBuffer) := by
  induction calls generalizing st with
  | nil =>
    change (GetReqContainers files idBuffer st).bind some = GetReqContainers files idBuffer st
    cases GetReqContainers files idBuffer st with
    | none => rfl
    | some st' => rfl
  | cons names calls ih =>
    rw [List.cons_append]
    unfold getReqContainersCalls
    rw [Option.bind_assoc]
    congr 1
    funext st'
    exact ih st'

/-- The read cache is right exactly when its pool has as many slots as its map has entries, or
there are no more misses than slots. -/
theorem getReqContainers_right (files : Table Path Bytes)
    (hfits : ∀ name body, reqContainer files name = some body → body.length ≤ MAX_CONTAINER_SIZE)
    (readCacheSize : Nat) (pool containerArray : Nat → Bytes)
    (calls : List (List ContainerName)) (idBuffer : List ContainerName)
    (hpresent : ∀ name ∈ (calls ++ [idBuffer]).flatten, reqContainer files name ≠ none) :
    (∃ st, getReqContainersCalls files (calls ++ [idBuffer])
        ⟨ReadCache.start readCacheSize pool, containerArray⟩ = some st ∧
      ReadCacheRight files readCacheSize idBuffer st) ↔
    (readCacheSize = 64 ∨ misses 64 [] (calls ++ [idBuffer]).flatten ≤ readCacheSize) := by
  constructor
  · rintro ⟨st, hst, hright⟩
    have h := getReqContainersCalls_requested (requested_start readCacheSize pool) hst
    by_cases heq : readCacheSize = 64
    · exact Or.inl heq
    · right
      have hne : st.containerCache.cacheSize ≠ st.containerCache.index.maxSize := by
        rw [h.cacheSize, h.maxSize]
        exact heq
      have hle := h.tracked.le_of_nodup hne
        (SlotCache.slots_nodup h.tracked.index hright.distinct)
      rwa [h.cacheSize, Nat.zero_add] at hle
  · intro hroom
    rw [List.flatten_append, List.flatten_singleton] at hpresent hroom
    rw [misses_append, List.nil_append] at hroom
    have hcalls : readCacheSize = 64 ∨ 0 + misses 64 [] calls.flatten ≤ readCacheSize :=
      hroom.imp_right (by omega)
    have hstart : Reading files readCacheSize [] 0
        (ReqContainer.mk (ReadCache.start readCacheSize pool) containerArray).containerCache :=
      reading_start readCacheSize pool
    obtain ⟨st₁, hst₁, h₁⟩ := getReqContainersCalls_reading hfits hstart
      (fun name hname => hpresent name (List.mem_append_left _ hname)) hcalls
    rw [Nat.zero_add] at h₁
    obtain ⟨st₂, hst₂, h₂, hserved, -⟩ := getReqContainersFrom_reading hfits h₁
      (fun name hname => hpresent name (List.mem_append_right _ hname)) hroom 0
    refine ⟨st₂, ?_, ?_, ?_, ?_⟩
    · rw [getReqContainersCalls_snoc, hst₁]
      exact hst₂
    · intro name name' slot hslot hslot'
      exact h₂.sound.distinct hslot hslot'
    · intro name slot hslot
      rw [← h₂.cacheSize]
      exact h₂.sound.lt (SlotCache.slot_mem hslot)
    · intro i name hi
      obtain ⟨body, hbody, htake⟩ := hserved i name hi
      dsimp only at htake
      rw [Nat.zero_add] at htake
      exact ⟨body, hbody, htake⟩

/-- The containers that a server has written fit the buffers. -/
theorem reachable_containers_fit {env : EnclaveEnv} {s : Server} (h : Reachable env s)
    {name : ContainerName} {body : Bytes} (hbody : reqContainer s.files name = some body) :
    body.length ≤ MAX_CONTAINER_SIZE := by
  obtain ⟨R, Lost, hinv⟩ := h.inv
  have hfile : ∀ p, s.files.lookup p = some body → body.length ≤ MAX_CONTAINER_SIZE := by
    intro p hp
    have hplace := hinv.stores.holds.place p
    have hpacked := @RecordsOk.packed env s.con_times R hinv.stores.holds.ok p
    rw [hp] at hplace
    generalize R p = records at hplace hpacked
    generalize opensIn s.phase s p = opened at hplace
    generalize queuedAt s.inputMQ p = queued at hplace
    generalize writingAt s.writer p = writing at hplace
    cases hplace with
    | writing c n rs hcbody hn =>
      have hfits := (hpacked rfl).fits
      rw [← hcbody] at hfits
      rw [List.length_take]
      omega
    | written rs => exact Nat.le_of_lt (hpacked rfl).fits
  unfold reqContainer at hbody
  rcases Option.or_eq_some_iff.mp hbody with hbase | ⟨-, hdelta⟩
  · exact hfile _ hbase
  · exact hfile _ hdelta

/-- Two base containers of one byte. -/
def slotName (b : Bool) : ContainerName := FixedBytes.fill 7 (if b then 98 else 97)

def slotFiles : Table Path Bytes :=
  ((∅ : Table Path Bytes).insert (false, slotName false) [1]).insert (false, slotName true) [2]

theorem slotFiles_fits (name : ContainerName) (body : Bytes)
    (h : reqContainer slotFiles name = some body) : body.length ≤ MAX_CONTAINER_SIZE := by
  have hlookup : ∀ p, slotFiles.lookup p = if p = (false, slotName true) then some [2]
      else if p = (false, slotName false) then some [1] else none := by
    intro p
    unfold slotFiles
    rw [Table.lookup_insert_ite, Table.lookup_insert_ite]
    rfl
  have hone : ∀ p, slotFiles.lookup p = some body → body.length = 1 := by
    intro p hp
    rw [hlookup] at hp
    split at hp
    · rw [← Option.some.inj hp]
      rfl
    · split at hp
      · rw [← Option.some.inj hp]
        rfl
      · cases hp
  have hlen : body.length = 1 := by
    unfold reqContainer at h
    rcases Option.or_eq_some_iff.mp h with hbase | ⟨-, hdelta⟩
    · exact hone _ hbase
    · exact hone _ hdelta
  rw [hlen]
  decide

theorem getReqContainers_right_slots :
    (∃ st, getReqContainersCalls slotFiles ([[slotName false, slotName true]] ++ [[slotName false]])
        ⟨ReadCache.start 2 fun _ => [], fun _ => []⟩ = some st ∧
      ReadCacheRight slotFiles 2 [slotName false] st) ↔
    (2 = 64 ∨ misses 64 [] ([[slotName false, slotName true]] ++ [[slotName false]]).flatten ≤ 2) :=
  getReqContainers_right slotFiles slotFiles_fits 2 _ _ _ _ (by decide +kernel)

/-- With one slot for two containers the second one is handed out as the first. -/
theorem readCache_one_slot :
    ∃ st, getReqContainersCalls slotFiles ([[slotName false, slotName true]] ++ [[slotName false]])
        ⟨ReadCache.start 1 fun _ => [], fun _ => []⟩ = some st ∧
      st.containerCache.index.lookup (slotName false) = some 0 ∧
      st.containerCache.index.lookup (slotName true) = some 0 ∧
      reqContainer slotFiles (slotName false) = some [1] ∧ st.containerArray 0 = [2] ∧
      ¬ReadCacheRight slotFiles 1 [slotName false] st := by
  have hrun : (getReqContainersCalls slotFiles
      ([[slotName false, slotName true]] ++ [[slotName false]])
      ⟨ReadCache.start 1 fun _ => [], fun _ => []⟩).map (fun st =>
        (st.containerCache.index.lookup (slotName false),
          st.containerCache.index.lookup (slotName true), st.containerArray 0)) =
      some (some 0, some 0, [2]) := by decide +kernel
  obtain ⟨st, hst, heq⟩ := Option.map_eq_some_iff.mp hrun
  obtain ⟨hfirst, hrest⟩ := Prod.mk.inj heq
  obtain ⟨hsecond, harray⟩ := Prod.mk.inj hrest
  refine ⟨st, hst, hfirst, hsecond, by decide +kernel, harray, ?_⟩
  intro hright
  have hsame := hright.distinct hfirst hsecond
  have hne : slotName false ≠ slotName true := by decide
  exact hne hsame

end ReadCacheRight

section InContainercache

/-- A buffer of `MAX_CONTAINER_SIZE` bytes. -/
abbrev ContainerBuffer : Type := FixedBytes MAX_CONTAINER_SIZE

abbrev InContainercache : Type := SlotCache ContainerName ContainerBuffer

/-- `pool` is what the allocated memory held. -/
def InContainercache.start (pool : Nat → ContainerBuffer) : InContainercache where
  cacheSize := Cachesize
  index := ⟨Cachesize, 0, []⟩
  pool := pool
  currentIndex := 0

def InContainercache.ExistsInCache (name : ContainerName) (c : InContainercache) : Bool :=
  c.existsIn name

def InContainercache.ReadFromCache (name : ContainerName) (c : InContainercache) :
    Option (ContainerBuffer × InContainercache) := c.readFrom name

/-- Whatever `length` is, the whole slot is written. -/
def InContainercache.InsertToCache_Offline (name : ContainerName) (data : ContainerBuffer)
    (c : InContainercache) : Option InContainercache := c.insertTo name fun _ => data

inductive CacheOp
  | lookup (name : ContainerName)
  | read (name : ContainerName)
  | insert (name : ContainerName) (data : ContainerBuffer)

/-- `none`: the operation throws, or leaves the pool. -/
def CacheOp.run (c : InContainercache) : CacheOp → Option InContainercache
  | .lookup _ => some c
  | .read name => (InContainercache.ReadFromCache name c).map Prod.snd
  | .insert name data => InContainercache.InsertToCache_Offline name data c

/-- `OfflinedeltaTure` reads what is in the cache and inserts what is not. -/
def CacheOp.guarded (c : InContainercache) : CacheOp → Prop
  | .lookup _ => True
  | .read name => InContainercache.ExistsInCache name c = true
  | .insert name _ => InContainercache.ExistsInCache name c = false

/-- The cache after guarded operations. -/
inductive CacheRun (start : InContainercache) : List CacheOp → InContainercache → Prop
  | nil : CacheRun start [] start
  | snoc {ops : List CacheOp} {op : CacheOp} {c c' : InContainercache} (h : CacheRun start ops c)
    (hop : op.guarded c) (hrun : op.run c = some c') : CacheRun start (ops ++ [op]) c'

/-- The names that were read or inserted. -/
def used (ops : List CacheOp) : List ContainerName :=
  ops.filterMap fun
    | .lookup _ => none
    | .read name => some name
    | .insert name _ => some name

/-- The bytes of the last insertion of the name. -/
def lastInserted (name : ContainerName) (ops : List CacheOp) : Option ContainerBuffer :=
  ops.reverse.findSome? fun
    | .lookup _ => none
    | .read _ => none
    | .insert name' data => if name' = name then some data else none

/-- The cache after `m` insertions. -/
structure Caching (ops : List CacheOp) (m : Nat) (c : InContainercache) : Prop where
  sound : c.Sound m
  cacheSize : c.cacheSize = Cachesize
  maxSize : c.index.maxSize = Cachesize
  names : c.index.names = (recency (used ops)).take Cachesize
  held : ∀ {name slot}, c.index.lookup name = some slot →
    lastInserted name ops = some (c.pool slot)

section Caching
variable {pool : Nat → ContainerBuffer} {ops : List CacheOp} {m : Nat} {c : InContainercache}

theorem caching_start (pool : Nat → ContainerBuffer) :
    Caching [] 0 (InContainercache.start pool) := by
  have hok : Lru.Ok (⟨Cachesize, 0, []⟩ : Lru ContainerName Nat) :=
    ⟨by decide, rfl, Nat.zero_le _, List.nodup_nil⟩
  refine ⟨⟨hok, List.nodup_nil, ?_, (Nat.zero_min _).symm, (Nat.zero_min _).symm⟩, rfl, rfl,
    rfl, ?_⟩
  · intro slot hslot
    cases hslot
  · intro name slot hslot
    cases hslot

theorem used_snoc (ops : List CacheOp) (op : CacheOp) : used (ops ++ [op]) = used ops ++ used [op] :=
  List.filterMap_append ..

theorem lastInserted_snoc (name : ContainerName) (ops : List CacheOp) (op : CacheOp) :
    lastInserted name (ops ++ [op]) = (lastInserted name [op]).or (lastInserted name ops) := by
  unfold lastInserted
  rw [List.reverse_append, List.findSome?_append]

theorem Caching.lookup (h : Caching ops m c) (name : ContainerName) :
    Caching (ops ++ [.lookup name]) m c := by
  refine ⟨h.sound, h.cacheSize, h.maxSize, ?_, ?_⟩
  · rw [used_snoc]
    exact (List.append_nil (used ops)).symm ▸ h.names
  · intro name' slot hslot
    rw [lastInserted_snoc]
    exact h.held hslot

theorem Caching.read (h : Caching ops m c) {name : ContainerName}
    (hname : InContainercache.ExistsInCache name c = true) :
    ∃ data c', InContainercache.ReadFromCache name c = some (data, c') ∧
      lastInserted name ops = some data ∧ Caching (ops ++ [.read name]) m c' := by
  obtain ⟨slot, hslot⟩ := Option.isSome_iff_exists.mp hname
  obtain ⟨c', hread, hsound, hsize, hindex, hpool⟩ := h.sound.readFrom hslot
  refine ⟨c.pool slot, c', hread, h.held hslot, hsound, hsize.trans h.cacheSize, ?_, ?_, ?_⟩
  · rw [hindex]
    exact h.maxSize
  · rw [hindex, used_snoc]
    exact Lru.names_touch h.names hslot
  · intro name' slot' hslot'
    rw [hindex, Lru.lookup_splice hslot] at hslot'
    rw [lastInserted_snoc, hpool]
    exact h.held hslot'

theorem Caching.insert (h : Caching ops m c) {name : ContainerName}
    (hname : InContainercache.ExistsInCache name c = false) (data : ContainerBuffer) :
    ∃ c', InContainercache.InsertToCache_Offline name data c = some c' ∧
      c'.index.names = (name :: c.index.names).take Cachesize ∧
      Caching (ops ++ [.insert name data]) (m + 1) c' := by
  have hnot : name ∉ (recency (used ops)).take Cachesize := by
    rw [← h.names]
    intro hmem
    have hcontains : InContainercache.ExistsInCache name c = true := Lru.contains_iff.mpr hmem
    rw [hcontains] at hname
    cases hname
  obtain ⟨c', hinsert, hsound, hnew⟩ := h.sound.insertTo hname
    (Or.inl (h.cacheSize.trans h.maxSize.symm)) fun _ => data
  have hnames := hnew.names
  rw [h.maxSize] at hnames
  refine ⟨c', hinsert, hnames, hsound, hnew.cacheSize.trans h.cacheSize,
    hnew.maxSize.trans h.maxSize, ?_, ?_⟩
  · rw [hnames, h.names, used_snoc]
    change _ = (recency (used ops ++ [name])).take Cachesize
    rw [recency_snoc, take_push hnot]
  · intro name' slot hslot
    rw [lastInserted_snoc]
    rcases hnew.held hslot with ⟨rfl, -, hd⟩ | ⟨hold, hpool⟩
    · rw [hd]
      simp [lastInserted]
    · have hne : name ≠ name' := by
        rintro rfl
        unfold InContainercache.ExistsInCache SlotCache.existsIn Lru.contains at hname
        rw [hold] at hname
        cases hname
      rw [hpool, ← h.held hold]
      simp [lastInserted, hne]

theorem CacheRun.caching (h : CacheRun (InContainercache.start pool) ops c) :
    ∃ m, Caching ops m c := by
  induction h with
  | nil => exact ⟨0, caching_start pool⟩
  | @snoc ops op c c' _ hop hrun ih =>
    obtain ⟨m, hc⟩ := ih
    cases op with
    | lookup name =>
      obtain rfl := Option.some.inj hrun
      exact ⟨m, hc.lookup name⟩
    | read name =>
      obtain ⟨data, c'', hread, -, hc'⟩ := hc.read hop
      change (InContainercache.ReadFromCache name c).map Prod.snd = some c' at hrun
      rw [hread] at hrun
      obtain rfl := Option.some.inj hrun
      exact ⟨m, hc'⟩
    | insert name data =>
      obtain ⟨c'', hinsert, -, hc'⟩ := hc.insert hop data
      change InContainercache.InsertToCache_Offline name data c = some c' at hrun
      rw [hinsert] at hrun
      obtain rfl := Option.some.inj hrun
      exact ⟨m + 1, hc'⟩

/-- The names are the ones used last, each with a slot of its own in the pool; one more pushes out
the one used least recently, and a name that is there reads as it was inserted last. -/
structure InContainercacheRight (ops : List CacheOp) (c : InContainercache) : Prop where
  distinct : ∀ {name name' slot}, c.index.lookup name = some slot →
    c.index.lookup name' = some slot → name = name'
  few : c.index.size ≤ Cachesize
  below : ∀ {name slot}, c.index.lookup name = some slot → slot < Cachesize
  recent : c.index.names = (recency (used ops)).take Cachesize
  inserts : ∀ {name} data, InContainercache.ExistsInCache name c = false →
    ∃ c', InContainercache.InsertToCache_Offline name data c = some c' ∧
      c'.index.names =
        name :: (if c.index.size = Cachesize then c.index.names.dropLast else c.index.names)
  reads : ∀ {name}, InContainercache.ExistsInCache name c = true →
    ∃ data c', InContainercache.ReadFromCache name c = some (data, c') ∧
      lastInserted name ops = some data

theorem take_cons_full {K : Type} (name : K) {names : List K} {n : Nat} (hn : 0 < n)
    (hle : names.length ≤ n) : (name :: names).take n =
      name :: (if names.length = n then names.dropLast else names) := by
  obtain ⟨k, rfl⟩ := Nat.exists_eq_succ_of_ne_zero (Nat.ne_of_gt hn)
  rw [List.take_succ_cons]
  by_cases hfull : names.length = k.succ
  · rw [if_pos hfull, List.dropLast_eq_take, hfull]
    rfl
  · rw [if_neg hfull, List.take_of_length_le (by omega)]

theorem inContainercache_right {pool : Nat → ContainerBuffer} {ops : List CacheOp}
    {c : InContainercache} (h : CacheRun (InContainercache.start pool) ops c) :
    InContainercacheRight ops c := by
  obtain ⟨m, hc⟩ := h.caching
  have hfew : c.index.size ≤ Cachesize := by
    rw [← hc.maxSize]
    exact hc.sound.index.le
  refine ⟨hc.sound.distinct, hfew, ?_, hc.names, ?_, ?_⟩
  · intro name slot hslot
    rw [← hc.cacheSize]
    exact hc.sound.lt (SlotCache.slot_mem hslot)
  · intro name data hname
    obtain ⟨c', hinsert, hnames, -⟩ := hc.insert hname data
    refine ⟨c', hinsert, ?_⟩
    rw [hnames, take_cons_full name (by decide), Lru.names_length]
    rw [Lru.names_length]
    exact hfew
  · intro name hname
    obtain ⟨data, c', hread, hlast, -⟩ := hc.read hname
    exact ⟨data, c', hread, hlast⟩

/-- A name that is not among the ones used last can be inserted. -/
theorem CacheRun.next_insert (h : CacheRun (InContainercache.start pool) ops c)
    {name : ContainerName} (hname : name ∉ (recency (used ops)).take Cachesize)
    (data : ContainerBuffer) :
    ∃ c', CacheRun (InContainercache.start pool) (ops ++ [.insert name data]) c' := by
  obtain ⟨m, hc⟩ := h.caching
  have habsent : InContainercache.ExistsInCache name c = false := by
    rw [Bool.eq_false_iff]
    intro hcontains
    have hmem := Lru.contains_iff.mp hcontains
    rw [hc.names] at hmem
    exact hname hmem
  obtain ⟨c', hinsert, _⟩ := hc.insert habsent data
  exact ⟨c', h.snoc habsent hinsert⟩

/-- And one that is can be read. -/
theorem CacheRun.next_read (h : CacheRun (InContainercache.start pool) ops c)
    {name : ContainerName} (hname : name ∈ (recency (used ops)).take Cachesize) :
    ∃ c', CacheRun (InContainercache.start pool) (ops ++ [.read name]) c' := by
  obtain ⟨m, hc⟩ := h.caching
  have hthere : InContainercache.ExistsInCache name c = true := by
    apply Lru.contains_iff.mpr
    rw [hc.names]
    exact hname
  obtain ⟨data, c', hread, _⟩ := hc.read hthere
  refine ⟨c', h.snoc hthere ?_⟩
  change (InContainercache.ReadFromCache name c).map Prod.snd = some c'
  rw [hread]
  rfl

/-- Containers for all slots of the cache. -/
def letterName (i : Nat) : ContainerName := FixedBytes.fill 7 (UInt8.ofNat (97 + i))

def letterInsert (i : Nat) : CacheOp :=
  .insert (letterName i) (FixedBytes.fill MAX_CONTAINER_SIZE (UInt8.ofNat (97 + i)))

/-- They are inserted, the first is read, and one more is inserted and read. -/
def letterOps : List CacheOp :=
  (List.range Cachesize).map letterInsert ++ [.read (letterName 0)] ++ [letterInsert Cachesize] ++
    [.read (letterName Cachesize)]

/-- The second one has gone. -/
theorem inContainercache_right_evicts : ∃ c,
    CacheRun (InContainercache.start fun _ => FixedBytes.fill MAX_CONTAINER_SIZE 0) letterOps c ∧
    InContainercacheRight letterOps c ∧
    c.index.names = [letterName 10, letterName 0, letterName 9, letterName 8, letterName 7,
      letterName 6, letterName 5, letterName 4, letterName 3, letterName 2] := by
  have hinserts : ∀ n ≤ Cachesize, ∃ c,
      CacheRun (InContainercache.start fun _ => FixedBytes.fill MAX_CONTAINER_SIZE 0)
        ((List.range n).map letterInsert) c := by
    have hnew : ∀ n < Cachesize, letterName n ∉
        (recency (used ((List.range n).map letterInsert))).take Cachesize := by
      decide +kernel
    intro n
    induction n with
    | zero => exact fun _ => ⟨_, .nil⟩
    | succ n ih =>
      intro hn
      obtain ⟨c, hc⟩ := ih (by omega)
      rw [List.range_succ, List.map_append]
      exact hc.next_insert (hnew n (by omega)) _
  obtain ⟨c₁, h₁⟩ := hinserts Cachesize (Nat.le_refl _)
  obtain ⟨c₂, h₂⟩ := @CacheRun.next_read _ _ _ h₁ (letterName 0) (by decide +kernel)
  obtain ⟨c₃, h₃⟩ := @CacheRun.next_insert _ _ _ h₂ (letterName Cachesize) (by decide +kernel)
    (FixedBytes.fill MAX_CONTAINER_SIZE (UInt8.ofNat (97 + Cachesize)))
  obtain ⟨c, hc⟩ := @CacheRun.next_read _ _ _ h₃ (letterName Cachesize) (by decide +kernel)
  have hright := inContainercache_right hc
  refine ⟨c, hc, hright, ?_⟩
  rw [hright.recent]
  decide +kernel

end Caching

section Refinement
variable {s : Server} {c : InContainercache} {m : Nat} {name : ContainerName}

/-- The cache of the upload model is what the names stand for. -/
def cached (c : InContainercache) : List (ContainerName × Bytes) :=
  c.contents.map fun p => (p.1, p.2.val)

theorem cached_find (c : InContainercache) (name : ContainerName) :
    ((cached c).find? fun p => p.1 = name) =
      (c.index.lookup name).map fun slot => (name, (c.pool slot).val) := by
  unfold cached
  rw [List.find?_map]
  change (c.contents.find? fun p => p.1 = name).map _ = _
  rw [SlotCache.contents_find, Option.map_map]
  rfl

theorem ReadFromCache_refines (hsound : c.Sound m) (hs : s.inCache = cached c) :
    (ReadFromCache name s).map (fun r => (r.1, r.2.inCache)) =
      (InContainercache.ReadFromCache name c).map fun r => (r.1.val, cached r.2) := by
  unfold ReadFromCache
  rw [hs, cached_find]
  cases hslot : c.index.lookup name with
  | none =>
    unfold InContainercache.ReadFromCache SlotCache.readFrom Lru.get
    rw [hslot]
    rfl
  | some slot =>
    obtain ⟨c', hread, -, -, hindex, hpool⟩ := hsound.readFrom hslot
    have hcontents : c'.contents =
        (name, c.pool slot) :: c.contents.filter fun p => p.1 ≠ name := by
      rw [← SlotCache.contents_splice c name]
      unfold SlotCache.contents
      rw [hindex, hpool]
    unfold InContainercache.ReadFromCache
    rw [hread, Option.map_some, Option.map_some, Option.map_some]
    unfold cached
    rw [hcontents, List.map_cons, List.filter_map]
    rfl

theorem InsertToCache_Offline_refines (hsound : c.Sound m) (hsize : c.cacheSize = Cachesize)
    (hmax : c.index.maxSize = Cachesize) (hs : s.inCache = cached c)
    (hname : InContainercache.ExistsInCache name c = false) (data : ContainerBuffer) :
    ∃ c', InContainercache.InsertToCache_Offline name data c = some c' ∧
      (InsertToCache_Offline name data.val s).inCache = cached c' := by
  obtain ⟨c', hinsert, -, hnew⟩ := hsound.insertTo hname (Or.inl (hsize.trans hmax.symm))
    fun _ => data
  refine ⟨c', hinsert, ?_⟩
  obtain ⟨-, hcontents⟩ := hnew.contents
  unfold InsertToCache_Offline cached
  dsimp only
  rw [hcontents, hs, hmax]
  unfold cached Cachesize
  rw [List.take_succ_cons, List.map_cons, List.map_take]

end Refinement

end InContainercache

end ShieldReduce.Prototype
