import Mathlib.Data.List.Induction
import Mathlib.Data.List.Sort
import ShieldReduce.Prototype.Compaction

/-!
# The cold lists

`Ocall_ColdInsert` collects the extents that a pass deletes, `Ocall_Coldrevise` lists the containers
they are in, and the cold loop of `Easy_update` fetches them through `out_buffer`, one call ahead of
the container it compacts.
-/

namespace ShieldReduce.Prototype
open Lib Store EDelta

abbrev Extent : Type := UInt32 × UInt32

def OUT_BUFFER_SIZE : Nat := 4000 * CHUNK_HASH_SIZE

def Cold_Batch : Nat := 1

structure ColdLists where
  cold_map : Table ContainerName (List Extent)
  /-- In ascending order. -/
  cold_container_set : List ContainerName
  cold_container_vector : List ContainerName
  out_buffer : FixedBytes OUT_BUFFER_SIZE

namespace ColdLists

section Operations

def start (out_buffer : FixedBytes OUT_BUFFER_SIZE) : ColdLists := ⟨∅, [], [], out_buffer⟩

/-- Copies to the front of `out_buffer`; `none`: the copy runs past its end. -/
def transfer (src : Bytes) (s : ColdLists) : Option ColdLists :=
  if h : src.length ≤ OUT_BUFFER_SIZE then
    some { s with out_buffer := ⟨memcpy s.out_buffer.val 0 src, by
      rw [memcpy_length src (Nat.zero_le _), s.out_buffer.property, Nat.zero_add,
        Nat.max_eq_left h]⟩ }
  else none

def extentBytes (extent : Extent) : Bytes := le32 extent.1 ++ le32 extent.2

/-- The enclave writes the name and the extent, the server reads them back. -/
def Ocall_ColdInsert (containerName : ContainerName) (extent : Extent) (s : ColdLists) :
    Option ColdLists :=
  (s.transfer (containerName.val ++ extentBytes extent)).map fun s =>
    let buffer := s.out_buffer.val
    let ColdContainerID : ContainerName := FixedBytes.read CONTAINER_ID_LENGTH buffer 0
    { s with
      cold_map := Table.push s.cold_map ColdContainerID (read32 buffer 7, read32 buffer 11)
      cold_container_set :=
        if ColdContainerID ∈ s.cold_container_set then s.cold_container_set
        else s.cold_container_set.orderedInsert (fun a b => a.val ≤ b.val) ColdContainerID }

def Ocall_Coldrevise (s : ColdLists) : ColdLists :=
  { s with
    cold_container_vector := s.cold_container_vector ++ s.cold_container_set
    cold_container_set := [] }

/-- One container of `Ocall_GetCold`; what it writes goes behind `out`. -/
def getColdOne (st : ColdLists × Bytes) : ColdLists × Bytes :=
  match st.1.cold_container_vector.getLast? with
  | none => st
  | some Cold_ContainerID =>
    let extents := Table.vec st.1.cold_map Cold_ContainerID
    ({ st.1 with
        cold_map := st.1.cold_map.erase Cold_ContainerID
        cold_container_vector := st.1.cold_container_vector.dropLast },
      st.2 ++ (Cold_ContainerID.val ++ (le32 (UInt32.ofNat extents.length) ++
        extents.reverse.flatMap extentBytes)))

def Ocall_GetCold (s : ColdLists) : Option ColdLists :=
  let Cold_Containernum :=
    if s.cold_container_vector.length > Cold_Batch then Cold_Batch
    else s.cold_container_vector.length
  let st := getColdOne^[Cold_Containernum] (s, le32 (UInt32.ofNat Cold_Containernum))
  st.1.transfer st.2

/-- `Coldnum` extents of the transfer from `off` on. -/
def readExtents (buffer : Bytes) : Nat → Nat → List Extent
  | 0, _ => []
  | Coldnum + 1, off =>
    (read32 buffer off, read32 buffer (off + 4)) :: readExtents buffer Coldnum (off + 8)

/-- Copies the containers of the transfer from `off` on to `cold_basemap`. -/
def readContainers (buffer : Bytes) : Nat → Nat → Table ContainerName (List Extent) →
    Table ContainerName (List Extent)
  | 0, _, cold_basemap => cold_basemap
  | num + 1, off, cold_basemap =>
    let ColdContainerID : ContainerName := FixedBytes.read CONTAINER_ID_LENGTH buffer off
    let Coldnum := (read32 buffer (off + 7)).toNat
    readContainers buffer num (off + 11 + 8 * Coldnum)
      ((readExtents buffer Coldnum (off + 11)).foldl
        (fun m coldpair => Table.push m ColdContainerID coldpair) cold_basemap)

/-- The cold loop, with what it hands to `Update_cold_container`; `none`: a copy has run past the
end of `out_buffer`, or the loop has not ended after so many rounds. -/
def coldLoop : Nat → ColdLists → Option (ColdLists × List (ContainerName × List Extent))
  | 0, _ => none
  | rounds + 1, s =>
    let ColdContainernum := (read32 s.out_buffer.val 0).toNat
    if ColdContainernum > 0 then
      let cold_basemap := readContainers s.out_buffer.val ColdContainernum 4 ∅
      (Ocall_GetCold s).bind fun s' =>
        (coldLoop rounds s').map fun r => (r.1, Table.pairs cold_basemap ++ r.2)
    else some (s, [])

/-- From `Ocall_Coldrevise` on. -/
def coldUpdate (rounds : Nat) (s : ColdLists) :
    Option (ColdLists × List (ContainerName × List Extent)) :=
  (Ocall_GetCold (Ocall_Coldrevise s)).bind (coldLoop rounds)

def coldInserts : List (ContainerName × Extent) → ColdLists → Option ColdLists
  | [], s => some s
  | p :: inserts, s => (Ocall_ColdInsert p.1 p.2 s).bind (coldInserts inserts)

end Operations

section Transfer
variable {s : ColdLists}

theorem read32_at (pre post : Bytes) (w : UInt32) :
    read32 (pre ++ (le32 w ++ post)) pre.length = w := read32_of_slice (slice_mid rfl rfl)

theorem readName_at (pre post : Bytes) (name : ContainerName) :
    FixedBytes.read CONTAINER_ID_LENGTH (pre ++ (name.val ++ post)) pre.length = name :=
  FixedBytes.read_of_slice (slice_mid rfl name.property.symm)

theorem extentBytes_length (extent : Extent) : (extentBytes extent).length = 8 := rfl

theorem flatMap_extentBytes_length (extents : List Extent) :
    (extents.flatMap extentBytes).length = 8 * extents.length := by
  induction extents with
  | nil => rfl
  | cons extent extents ih =>
    rw [List.flatMap_cons, List.length_append, ih, extentBytes_length, List.length_cons]
    omega

/-- A container of a transfer. -/
def entryBytes (e : ContainerName × List Extent) : Bytes :=
  e.1.val ++ (le32 (UInt32.ofNat e.2.length) ++ e.2.flatMap extentBytes)

theorem entryBytes_length (e : ContainerName × List Extent) :
    (entryBytes e).length = 11 + 8 * e.2.length := by
  unfold entryBytes
  rw [List.length_append, List.length_append, flatMap_extentBytes_length, le32_length,
    e.1.property]
  omega

theorem readExtents_at (pre post : Bytes) (extents : List Extent) :
    readExtents (pre ++ (extents.flatMap extentBytes ++ post)) extents.length pre.length =
      extents := by
  induction extents generalizing pre with
  | nil => rfl
  | cons extent extents ih =>
    have hsplit : pre ++ ((extent :: extents).flatMap extentBytes ++ post) =
        pre ++ (le32 extent.1 ++ (le32 extent.2 ++ (extents.flatMap extentBytes ++ post))) := by
      rw [List.flatMap_cons]
      unfold extentBytes
      simp only [List.append_assoc]
    have hfirst : read32 (pre ++ ((extent :: extents).flatMap extentBytes ++ post)) pre.length =
        extent.1 := by
      rw [hsplit]
      exact read32_at pre _ extent.1
    have hsecond : read32 (pre ++ ((extent :: extents).flatMap extentBytes ++ post))
        (pre.length + 4) = extent.2 := by
      have hat := read32_at (pre ++ le32 extent.1) (extents.flatMap extentBytes ++ post) extent.2
      rw [List.length_append, le32_length, List.append_assoc] at hat
      rw [hsplit]
      exact hat
    have hrest := ih (pre ++ extentBytes extent)
    rw [List.length_append, extentBytes_length, List.append_assoc,
      ← List.append_assoc (extentBytes extent)] at hrest
    rw [List.length_cons]
    unfold readExtents
    rw [hfirst, hsecond]
    rw [List.flatMap_cons]
    exact congrArg (extent :: ·) hrest

theorem readContainers_at (pre post : Bytes) (e : ContainerName × List Extent)
    (hlen : e.2.length < 2 ^ 32) (cold_basemap : Table ContainerName (List Extent)) :
    readContainers (pre ++ (entryBytes e ++ post)) 1 pre.length cold_basemap =
      e.2.foldl (fun m coldpair => Table.push m e.1 coldpair) cold_basemap := by
  have hsplit : pre ++ (entryBytes e ++ post) = pre ++ (e.1.val ++
      (le32 (UInt32.ofNat e.2.length) ++ (e.2.flatMap extentBytes ++ post))) := by
    unfold entryBytes
    simp only [List.append_assoc]
  have hname : FixedBytes.read CONTAINER_ID_LENGTH (pre ++ (entryBytes e ++ post)) pre.length =
      e.1 := by
    rw [hsplit]
    exact readName_at pre _ e.1
  have hnum : (read32 (pre ++ (entryBytes e ++ post)) (pre.length + 7)).toNat = e.2.length := by
    have hat := read32_at (pre ++ e.1.val) (e.2.flatMap extentBytes ++ post)
      (UInt32.ofNat e.2.length)
    rw [List.length_append, e.1.property, List.append_assoc] at hat
    rw [hsplit, hat, UInt32.toNat_ofNat', Nat.mod_eq_of_lt hlen]
  have hextents : readExtents (pre ++ (entryBytes e ++ post)) e.2.length (pre.length + 11) =
      e.2 := by
    have hat := readExtents_at (pre ++ e.1.val ++ le32 (UInt32.ofNat e.2.length)) post e.2
    rw [List.length_append, List.length_append, e.1.property, le32_length, List.append_assoc,
      List.append_assoc] at hat
    rw [hsplit]
    exact hat
  unfold readContainers
  dsimp only
  rw [hname, hnum, hextents]
  rfl

theorem transfer_some {src : Bytes} (h : src.length ≤ OUT_BUFFER_SIZE) : ∃ post out_buffer,
    s.transfer src = some { s with out_buffer := out_buffer } ∧ out_buffer.val = src ++ post := by
  unfold transfer
  rw [dif_pos h]
  refine ⟨s.out_buffer.val.drop (0 + src.length), _, rfl, ?_⟩
  rfl

end Transfer

section Insert
variable {inserted : List (ContainerName × Extent)} {s : ColdLists}

/-- The extents inserted for a container. -/
def extentsOf (inserts : List (ContainerName × Extent)) (name : ContainerName) : List Extent :=
  (inserts.filter fun p => p.1 = name).map Prod.snd

theorem extentsOf_snoc (inserts : List (ContainerName × Extent)) (p : ContainerName × Extent)
    (name : ContainerName) :
    extentsOf (inserts ++ [p]) name = extentsOf inserts name ++ if p.1 = name then [p.2] else [] := by
  unfold extentsOf
  rw [List.filter_append, List.map_append]
  by_cases hname : p.1 = name
  · rw [if_pos hname, List.filter_cons_of_pos (by simpa using hname)]
    rfl
  · rw [if_neg hname, List.filter_cons_of_neg (by simpa using hname)]
    rfl

/-- The lists after the insertions. -/
structure Collected (inserted : List (ContainerName × Extent)) (s : ColdLists) : Prop where
  extents : ∀ name, Table.vec s.cold_map name = extentsOf inserted name
  bound : ∀ name, s.cold_map.lookup name ≠ none → name ∈ inserted.map Prod.fst
  names : ∀ name, name ∈ s.cold_container_set ↔ name ∈ inserted.map Prod.fst
  once : s.cold_container_set.Nodup
  vector : s.cold_container_vector = []

theorem start_collected (out_buffer : FixedBytes OUT_BUFFER_SIZE) :
    Collected [] (start out_buffer) := by
  refine ⟨fun _ => rfl, ?_, fun _ => Iff.rfl, List.nodup_nil, rfl⟩
  intro name h
  exact absurd (AList.lookup_empty name) h

theorem Collected.insert (h : Collected inserted s) (name : ContainerName) (extent : Extent) :
    ∃ s', Ocall_ColdInsert name extent s = some s' ∧
      Collected (inserted ++ [(name, extent)]) s' := by
  have hfits : (name.val ++ extentBytes extent).length ≤ OUT_BUFFER_SIZE := by
    rw [List.length_append, name.property, extentBytes_length]
    decide
  obtain ⟨post, out_buffer, hs, hbuffer⟩ := transfer_some (s := s) hfits
  have hname : FixedBytes.read CONTAINER_ID_LENGTH out_buffer.val 0 = name := by
    rw [hbuffer, List.append_assoc]
    exact readName_at [] _ name
  have hsplit : out_buffer.val = name.val ++ (le32 extent.1 ++ (le32 extent.2 ++ post)) := by
    rw [hbuffer]
    unfold extentBytes
    simp only [List.append_assoc]
  have hfirst : read32 out_buffer.val 7 = extent.1 := by
    have hat := read32_at name.val (le32 extent.2 ++ post) extent.1
    rw [name.property] at hat
    rw [hsplit]
    exact hat
  have hsecond : read32 out_buffer.val 11 = extent.2 := by
    have hat := read32_at (name.val ++ le32 extent.1) post extent.2
    rw [List.length_append, name.property, le32_length, List.append_assoc] at hat
    rw [hsplit]
    exact hat
  have hset : ∀ set : List ContainerName, (if name ∈ set then set
      else set.orderedInsert (fun a b => a.val ≤ b.val) name).Perm
      (if name ∈ set then set else name :: set) := by
    intro set
    by_cases hmem : name ∈ set
    · rw [if_pos hmem, if_pos hmem]
    · rw [if_neg hmem, if_neg hmem]
      exact List.perm_orderedInsert _ _ _
  refine ⟨_, by unfold Ocall_ColdInsert; rw [hs]; rfl, ?_⟩
  dsimp only
  rw [hname, hfirst, hsecond]
  refine ⟨?_, ?_, ?_, ?_, h.vector⟩
  · intro name'
    dsimp only
    rw [Table.vec_push, extentsOf_snoc]
    by_cases hname' : name' = name
    · rw [if_pos hname', if_pos hname'.symm, h.extents, hname']
    · rw [if_neg hname', if_neg fun heq => hname' heq.symm, List.append_nil, h.extents]
  · intro name' hlook
    unfold Table.push at hlook
    dsimp only at hlook
    rw [Table.lookup_insert_ite] at hlook
    rw [List.map_append, List.mem_append]
    by_cases hname' : name' = name
    · exact Or.inr (List.mem_singleton.mpr hname')
    · rw [if_neg hname'] at hlook
      exact Or.inl (h.bound name' hlook)
  · intro name'
    dsimp only
    rw [(hset _).mem_iff, List.map_append, List.mem_append, ← h.names]
    by_cases hmem : name ∈ s.cold_container_set
    · rw [if_pos hmem]
      constructor
      · exact Or.inl
      · rintro (hold | hnew)
        · exact hold
        · rw [List.mem_singleton.mp hnew]
          exact hmem
    · rw [if_neg hmem, List.mem_cons, or_comm, List.map_singleton, List.mem_singleton]
  · dsimp only
    rw [(hset _).nodup_iff]
    by_cases hmem : name ∈ s.cold_container_set
    · rw [if_pos hmem]
      exact h.once
    · rw [if_neg hmem]
      exact List.nodup_cons.mpr ⟨hmem, h.once⟩

theorem Collected.inserts (h : Collected inserted s) (inserts : List (ContainerName × Extent)) :
    ∃ s', coldInserts inserts s = some s' ∧ Collected (inserted ++ inserts) s' := by
  induction inserts generalizing inserted s with
  | nil =>
    refine ⟨s, rfl, ?_⟩
    rw [List.append_nil]
    exact h
  | cons p inserts ih =>
    obtain ⟨s₁, hs₁, h₁⟩ := h.insert p.1 p.2
    obtain ⟨s₂, hs₂, h₂⟩ := ih h₁
    refine ⟨s₂, ?_, ?_⟩
    · unfold coldInserts
      rw [hs₁]
      exact hs₂
    · rw [List.append_assoc] at h₂
      exact h₂

end Insert

section Loop
variable {s : ColdLists}

/-- `out_buffer` begins with these containers. -/
def Fetched (entries : List (ContainerName × List Extent)) (s : ColdLists) : Prop :=
  ∃ post, s.out_buffer.val =
    le32 (UInt32.ofNat entries.length) ++ (entries.flatMap entryBytes ++ post)

/-- A container of a transfer that fits. -/
structure Fits (e : ContainerName × List Extent) : Prop where
  some : e.2 ≠ []
  fits : 4 + (11 + 8 * e.2.length) ≤ OUT_BUFFER_SIZE

theorem Fits.small {e : ContainerName × List Extent} (h : Fits e) : e.2.length < 2 ^ 32 := by
  have hfits := h.fits
  unfold OUT_BUFFER_SIZE CHUNK_HASH_SIZE at hfits
  omega

theorem Ocall_GetCold_empty (h : s.cold_container_vector = []) :
    ∃ out_buffer, Ocall_GetCold s = some { s with out_buffer := out_buffer } ∧
      Fetched [] { s with out_buffer := out_buffer } := by
  have hfits : (le32 (UInt32.ofNat 0)).length ≤ OUT_BUFFER_SIZE := by
    rw [le32_length]
    decide
  obtain ⟨post, out_buffer, hs, hbuffer⟩ := transfer_some (s := s) hfits
  have hnum : (if s.cold_container_vector.length > Cold_Batch then Cold_Batch
      else s.cold_container_vector.length) = 0 := by
    rw [h]
    rfl
  refine ⟨out_buffer, ?_, post, hbuffer⟩
  unfold Ocall_GetCold
  dsimp only
  rw [hnum]
  exact hs

/-- One call fetches the last container of the vector. -/
theorem Ocall_GetCold_snoc {names : List ContainerName} {name : ContainerName}
    (h : s.cold_container_vector = names ++ [name])
    (hfits : Fits (name, (Table.vec s.cold_map name).reverse)) :
    ∃ s', Ocall_GetCold s = some s' ∧ s'.cold_map = s.cold_map.erase name ∧
      s'.cold_container_set = s.cold_container_set ∧ s'.cold_container_vector = names ∧
      Fetched [(name, (Table.vec s.cold_map name).reverse)] s' := by
  have hnum : (if s.cold_container_vector.length > Cold_Batch then Cold_Batch
      else s.cold_container_vector.length) = 1 := by
    rw [h, List.length_append, List.length_singleton]
    unfold Cold_Batch
    split
    · rfl
    · omega
  have hone : getColdOne (s, le32 (UInt32.ofNat 1)) =
      ({ s with cold_map := s.cold_map.erase name, cold_container_vector := names },
        le32 (UInt32.ofNat 1) ++ entryBytes (name, (Table.vec s.cold_map name).reverse)) := by
    unfold getColdOne entryBytes
    dsimp only
    rw [h, List.getLast?_concat]
    dsimp only
    rw [List.dropLast_concat, List.length_reverse]
  have hlen : (le32 (UInt32.ofNat 1) ++
      entryBytes (name, (Table.vec s.cold_map name).reverse)).length ≤ OUT_BUFFER_SIZE := by
    rw [List.length_append, le32_length, entryBytes_length]
    exact hfits.fits
  obtain ⟨post, out_buffer, hs, hbuffer⟩ := transfer_some hlen
    (s := { s with cold_map := s.cold_map.erase name, cold_container_vector := names })
  refine ⟨{ s with
    cold_map := s.cold_map.erase name
    cold_container_vector := names
    out_buffer := out_buffer }, ?_, rfl, rfl, rfl, post, ?_⟩
  · unfold Ocall_GetCold
    dsimp only
    rw [hnum, Function.iterate_one, hone]
    exact hs
  · dsimp only
    rw [hbuffer, List.flatMap_singleton, List.append_assoc]
    rfl

theorem foldl_push_insert (name : ContainerName) (old extents : List Extent) :
    extents.foldl (fun m coldpair => Table.push m name coldpair)
      ((∅ : Table ContainerName (List Extent)).insert name old) =
      (∅ : Table ContainerName (List Extent)).insert name (old ++ extents) := by
  induction extents generalizing old with
  | nil => rw [List.append_nil]; rfl
  | cons extent extents ih =>
    have hpush : Table.push ((∅ : Table ContainerName (List Extent)).insert name old) name extent =
        (∅ : Table ContainerName (List Extent)).insert name (old ++ [extent]) := by
      unfold Table.push Table.vec
      rw [Table.lookup_insert_ite, if_pos rfl, AList.insert_insert]
      rfl
    rw [List.foldl_cons, hpush, ih, List.append_assoc]
    rfl

theorem foldl_push_pairs (name : ContainerName) {extents : List Extent} (h : extents ≠ []) :
    Table.pairs (extents.foldl (fun m coldpair => Table.push m name coldpair) ∅) =
      [(name, extents)] := by
  cases extents with
  | nil => exact absurd rfl h
  | cons extent extents =>
    have hfold := foldl_push_insert name [extent] extents
    rw [List.foldl_cons]
    change Table.pairs (extents.foldl (fun m coldpair => Table.push m name coldpair)
      ((∅ : Table ContainerName (List Extent)).insert name [extent])) = _
    rw [hfold]
    rfl

/-- The round that finds a container in `out_buffer` hands it over. -/
theorem coldLoop_one {e : ContainerName × List Extent} (hs : Fetched [e] s) (he : Fits e)
    (rounds : Nat) : coldLoop (rounds + 1) s =
      (Ocall_GetCold s).bind fun s' => (coldLoop rounds s').map fun r => (r.1, e :: r.2) := by
  obtain ⟨post, hbuffer⟩ := hs
  rw [List.flatMap_singleton, List.length_singleton] at hbuffer
  have hnum : (read32 s.out_buffer.val 0).toNat = 1 := by
    have hat := read32_at [] (entryBytes e ++ post) (UInt32.ofNat 1)
    rw [hbuffer]
    exact congrArg UInt32.toNat hat
  have hread : readContainers s.out_buffer.val 1 4 ∅ =
      e.2.foldl (fun m coldpair => Table.push m e.1 coldpair) ∅ := by
    rw [hbuffer]
    exact readContainers_at (le32 (UInt32.ofNat 1)) post e he.small ∅
  conv_lhs => unfold coldLoop
  dsimp only
  rw [hnum, if_pos (by decide), hread, foldl_push_pairs e.1 he.some]
  rfl

theorem coldLoop_none (hs : Fetched [] s) (rounds : Nat) : coldLoop (rounds + 1) s = some (s, []) := by
  obtain ⟨post, hbuffer⟩ := hs
  have hnum : (read32 s.out_buffer.val 0).toNat = 0 := by
    have hat := read32_at [] post (UInt32.ofNat 0)
    rw [hbuffer]
    exact congrArg UInt32.toNat hat
  unfold coldLoop
  dsimp only
  rw [hnum]
  rfl

/-- The containers with their extents, the last one first. -/
def handed (s : ColdLists) (names : List ContainerName) : List (ContainerName × List Extent) :=
  names.map fun name => (name, (Table.vec s.cold_map name).reverse)

/-- What a call that fetches `name` leaves. -/
structure Took (s : ColdLists) (names : List ContainerName) (name : ContainerName)
    (s' : ColdLists) : Prop where
  get : Ocall_GetCold s = some s'
  set : s'.cold_container_set = s.cold_container_set
  vector : s'.cold_container_vector = names
  fetched : Fetched [(name, (Table.vec s.cold_map name).reverse)] s'
  last : Fits (name, (Table.vec s.cold_map name).reverse)
  same : ∀ {names'}, (∀ x ∈ names', x ∈ names) → handed s' names' = handed s names'
  fits : ∀ e ∈ handed s' names, Fits e
  left : ∀ {x}, s'.cold_map.lookup x ≠ none → x ≠ name ∧ s.cold_map.lookup x ≠ none

theorem exists_took {names : List ContainerName} {name : ContainerName}
    (hvector : s.cold_container_vector = names ++ [name]) (hnodup : (names ++ [name]).Nodup)
    (hfits : ∀ e ∈ handed s (names ++ [name]), Fits e) : ∃ s', Took s names name s' := by
  obtain ⟨-, -, hnot⟩ := List.nodup_append.mp hnodup
  have hlast := hfits (name, (Table.vec s.cold_map name).reverse)
    (List.mem_map.mpr ⟨name, List.mem_append_right _ (List.mem_singleton.mpr rfl), rfl⟩)
  obtain ⟨s', hget, hmap, hset, hvector', hfetched⟩ := Ocall_GetCold_snoc hvector hlast
  have hsame : ∀ {names'}, (∀ x ∈ names', x ∈ names) → handed s' names' = handed s names' := by
    intro names' hsub
    apply List.map_congr_left
    intro x hx
    have hne : x ≠ name := hnot x (hsub x hx) name (List.mem_singleton.mpr rfl)
    rw [hmap, Table.vec_erase, if_neg hne]
  refine ⟨s', hget, hset, hvector', hfetched, hlast, hsame, ?_, ?_⟩
  · rw [hsame fun _ h => h]
    intro e he
    obtain ⟨x, hx, rfl⟩ := List.mem_map.mp he
    exact hfits _ (List.mem_map.mpr ⟨x, List.mem_append_left _ hx, rfl⟩)
  · intro x hx
    rw [hmap, Table.lookup_erase_ite] at hx
    have hne : x ≠ name := fun heq => hx (if_pos heq)
    rw [if_neg hne] at hx
    exact ⟨hne, hx⟩

/-- The rest of the loop, when `e` is in `out_buffer` and the containers `names` are still listed. -/
theorem coldLoop_delivers {names : List ContainerName} {s : ColdLists}
    {e : ContainerName × List Extent} (hs : Fetched [e] s) (he : Fits e)
    (hvector : s.cold_container_vector = names) (hnodup : names.Nodup)
    (hfits : ∀ e ∈ handed s names, Fits e) :
    ∃ t, coldLoop (names.length + 2) s = some (t, e :: handed s names.reverse) ∧
      t.cold_container_vector = [] ∧ t.cold_container_set = s.cold_container_set ∧
      ∀ name, t.cold_map.lookup name ≠ none → name ∉ names ∧ s.cold_map.lookup name ≠ none := by
  induction names using List.reverseRecOn generalizing s e with
  | nil =>
    obtain ⟨out_buffer, hget, hfetched⟩ := Ocall_GetCold_empty hvector
    refine ⟨{ s with out_buffer := out_buffer }, ?_, hvector, rfl, ?_⟩
    · rw [coldLoop_one hs he, hget, Option.bind_some, coldLoop_none hfetched]
      rfl
    · intro name hname
      exact ⟨List.not_mem_nil, hname⟩
  | append_singleton names name ih =>
    obtain ⟨s', h⟩ := exists_took hvector hnodup hfits
    obtain ⟨t, hloop, hempty, hset, hlook⟩ := ih h.fetched h.last h.vector
      (List.nodup_append.mp hnodup).1 h.fits
    refine ⟨t, ?_, hempty, hset.trans h.set, ?_⟩
    · rw [List.length_append, List.length_singleton, coldLoop_one hs he, h.get, Option.bind_some,
        hloop, h.same fun _ hx => List.mem_reverse.mp hx, List.reverse_append]
      rfl
    · intro x hx
      obtain ⟨hnot, hleft⟩ := hlook x hx
      obtain ⟨hne, hold⟩ := h.left hleft
      refine ⟨?_, hold⟩
      rw [List.mem_append, List.mem_singleton]
      exact fun hmem => hmem.elim hnot hne

/-- All of the loop, when the containers `names` are listed. -/
theorem coldUpdate_handed {s : ColdLists} (hset : s.cold_container_set.Nodup)
    (hvector : s.cold_container_vector = [])
    (hbound : ∀ name, s.cold_map.lookup name ≠ none → name ∈ s.cold_container_set)
    (hfits : ∀ e ∈ handed s s.cold_container_set, Fits e) :
    ∃ rounds t, coldUpdate rounds s = some (t, handed s s.cold_container_set.reverse) ∧
      t.cold_map = ∅ ∧ t.cold_container_set = [] ∧ t.cold_container_vector = [] := by
  have hrevised : (Ocall_Coldrevise s).cold_container_vector = s.cold_container_set := by
    unfold Ocall_Coldrevise
    dsimp only
    rw [hvector, List.nil_append]
  have hempty : ∀ t : ColdLists, (∀ name, t.cold_map.lookup name ≠ none →
      name ∉ s.cold_container_set ∧ s.cold_map.lookup name ≠ none) → t.cold_map = ∅ := by
    intro t ht
    apply Table.eq_empty
    intro name
    by_contra hname
    obtain ⟨hnot, hold⟩ := ht name hname
    exact hnot (hbound name hold)
  unfold coldUpdate
  rcases List.eq_nil_or_concat s.cold_container_set with hnil | ⟨names, name, hconcat⟩
  · rw [hnil] at hrevised
    obtain ⟨out_buffer, hget, hfetched⟩ := Ocall_GetCold_empty hrevised
    rw [hget, hnil]
    refine ⟨1, { Ocall_Coldrevise s with out_buffer := out_buffer }, coldLoop_none hfetched 0, ?_,
      rfl, hrevised⟩
    apply hempty
    intro name hname
    rw [hnil]
    exact ⟨List.not_mem_nil, hname⟩
  · rw [List.concat_eq_append] at hconcat
    rw [hconcat] at hrevised hset hfits
    obtain ⟨s', h⟩ := exists_took hrevised hset hfits
    obtain ⟨t, hloop, hvec, hset', hlook⟩ := coldLoop_delivers h.fetched h.last h.vector
      (List.nodup_append.mp hset).1 h.fits
    rw [h.get]
    refine ⟨names.length + 2, t, ?_, ?_, hset'.trans h.set, hvec⟩
    · rw [Option.bind_some, hloop, h.same fun _ hx => List.mem_reverse.mp hx, hconcat,
        List.reverse_append]
      rfl
    · apply hempty
      intro x hx
      obtain ⟨hnot, hleft⟩ := hlook x hx
      obtain ⟨hne, hold⟩ := h.left hleft
      refine ⟨?_, hold⟩
      rw [hconcat, List.mem_append, List.mem_singleton]
      exact fun hmem => hmem.elim hnot hne

end Loop

section Delivered
variable {inserts : List (ContainerName × Extent)}

/-- Records take up room, so distinct ones of a container fit one transfer. -/
theorem wholeRecords_fit {rs : List ChunkRecord} {extents : List Extent}
    (hsize : (layout rs).length ≤ MAX_CONTAINER_SIZE) (h : WholeRecords rs extents) :
    4 + (11 + 8 * extents.length) ≤ OUT_BUFFER_SIZE := by
  have hcount : extents.length ≤ rs.length := by
    have hsub : extents ⊆ rs.map fun r => coldExtent r.entry := by
      intro extent hextent
      obtain ⟨r, hr, rfl⟩ := h.record extent hextent
      exact List.mem_map_of_mem hr
    have hle := (List.subperm_of_subset h.nodup hsub).length_le
    rwa [List.length_map] at hle
  have hroom : ∀ rs : List ChunkRecord, RECORD_OVERHEAD * rs.length ≤ (layout rs).length := by
    intro rs
    induction rs with
    | nil => exact Nat.zero_le _
    | cons r rs ih =>
      rw [layout_cons, List.length_append, ChunkRecord.toBytes_length, List.length_cons,
        Nat.mul_succ]
      unfold ChunkRecord.size
      omega
  have hrecords := hroom rs
  unfold RECORD_OVERHEAD RECIPE_ENTRY_SIZE CRYPTO_BLOCK_SIZE CHUNK_HASH_SIZE at hrecords
  unfold MAX_CONTAINER_SIZE at hsize
  unfold OUT_BUFFER_SIZE CHUNK_HASH_SIZE
  omega

theorem extentsOf_ne_nil {name : ContainerName} (h : name ∈ inserts.map Prod.fst) :
    extentsOf inserts name ≠ [] := by
  obtain ⟨p, hp, rfl⟩ := List.mem_map.mp h
  have hmem : p.2 ∈ extentsOf inserts p.1 :=
    List.mem_map.mpr ⟨p, List.mem_filter.mpr ⟨hp, by simp⟩, rfl⟩
  exact List.ne_nil_of_mem hmem

/-- A cold list of extents of whole records reaches `Update_cold_container`: every container once,
with its extents, through copies that stay in `out_buffer`, and nothing is left. -/
theorem coldUpdate_delivers (out_buffer : FixedBytes OUT_BUFFER_SIZE)
    (inserts : List (ContainerName × Extent)) (containers : ContainerName → List ChunkRecord)
    (hsize : ∀ name, (layout (containers name)).length ≤ MAX_CONTAINER_SIZE)
    (hextents : ∀ name, WholeRecords (containers name) (extentsOf inserts name)) :
    ∃ s, coldInserts inserts (start out_buffer) = some s ∧
      ∃ rounds t delivered, coldUpdate rounds s = some (t, delivered) ∧
        (delivered.map Prod.fst).Nodup ∧
        (∀ name, name ∈ delivered.map Prod.fst ↔ name ∈ inserts.map Prod.fst) ∧
        (∀ e ∈ delivered, e.2.Perm (extentsOf inserts e.1)) ∧
        t.cold_map = ∅ ∧ t.cold_container_set = [] ∧ t.cold_container_vector = [] := by
  obtain ⟨s, hs, hcollected⟩ := (start_collected out_buffer).inserts inserts
  rw [List.nil_append] at hcollected
  have hfits : ∀ e ∈ handed s s.cold_container_set, Fits e := by
    intro e he
    obtain ⟨name, hname, rfl⟩ := List.mem_map.mp he
    have hmem := (hcollected.names name).mp hname
    refine ⟨?_, ?_⟩
    · rw [hcollected.extents]
      simpa using extentsOf_ne_nil hmem
    · rw [List.length_reverse, hcollected.extents]
      exact wholeRecords_fit (hsize name) (hextents name)
  obtain ⟨rounds, t, hrun, hempty⟩ := coldUpdate_handed hcollected.once hcollected.vector
    (fun name hname => (hcollected.names name).mpr (hcollected.bound name hname)) hfits
  have hfst : (handed s s.cold_container_set.reverse).map Prod.fst =
      s.cold_container_set.reverse := by
    unfold handed
    rw [List.map_map]
    exact List.map_id _
  refine ⟨s, hs, rounds, t, _, hrun, ?_, ?_, ?_, hempty⟩
  · rw [hfst]
    exact List.nodup_reverse.mpr hcollected.once
  · intro name
    rw [hfst, List.mem_reverse, hcollected.names]
  · intro e he
    obtain ⟨name, -, rfl⟩ := List.mem_map.mp he
    dsimp only
    rw [hcollected.extents]
    exact List.reverse_perm _

def twinInserts : List (ContainerName × Extent) :=
  [(FixedBytes.fill 7 0, (0, 289)), (FixedBytes.fill 7 1, (578, 289)),
    (FixedBytes.fill 7 0, (289, 289))]

theorem twinInserts_whole (name : ContainerName) :
    WholeRecords twinRecords (extentsOf twinInserts name) := by
  have hsub : (extentsOf twinInserts name).Sublist (twinInserts.map Prod.snd) :=
    List.filter_sublist.map Prod.snd
  have hnodup : (twinInserts.map Prod.snd).Nodup := by decide +kernel
  have hrecord : (twinInserts.map Prod.snd).all
      (fun ext => twinRecords.any fun r => ext == coldExtent r.entry) = true := by
    decide +kernel
  refine ⟨hnodup.sublist hsub, fun ext hext => ?_⟩
  obtain ⟨r, hr, heq⟩ := List.any_eq_true.mp (List.all_eq_true.mp hrecord ext (hsub.subset hext))
  exact ⟨r, hr, eq_of_beq heq⟩

theorem coldUpdate_delivers_twins :
    ∃ s, coldInserts twinInserts (start (FixedBytes.fill OUT_BUFFER_SIZE 0)) = some s ∧
      ∃ rounds t delivered, coldUpdate rounds s = some (t, delivered) ∧
        (delivered.map Prod.fst).Nodup ∧
        (∀ name, name ∈ delivered.map Prod.fst ↔ name ∈ twinInserts.map Prod.fst) ∧
        (∀ e ∈ delivered, e.2.Perm (extentsOf twinInserts e.1)) ∧
        t.cold_map = ∅ ∧ t.cold_container_set = [] ∧ t.cold_container_vector = [] :=
  coldUpdate_delivers (FixedBytes.fill OUT_BUFFER_SIZE 0) twinInserts (fun _ => twinRecords)
    (fun _ => twinServer_size) twinInserts_whole

end Delivered

section Server

/-- The cold map of the server model holds the same extents. -/
theorem ColdInsert_vec (inserts : List (ContainerName × Extent)) (s : Server)
    (name : ContainerName) :
    Table.vec (inserts.foldl (fun s p => Prototype.Ocall_ColdInsert p.1 p.2 s) s).cold_map name =
      Table.vec s.cold_map name ++ extentsOf inserts name := by
  induction inserts using List.reverseRecOn with
  | nil => exact (List.append_nil _).symm
  | append_singleton inserts p ih =>
    rw [List.foldl_append, extentsOf_snoc]
    unfold Prototype.Ocall_ColdInsert
    dsimp only [List.foldl_cons, List.foldl_nil]
    rw [Table.vec_push]
    by_cases hname : name = p.1
    · subst hname
      rw [if_pos rfl, if_pos rfl, ← List.append_assoc, ← ih]
      rfl
    · rw [if_neg hname, if_neg fun heq => hname heq.symm, List.append_nil, ← ih]
      rfl

end Server

end ColdLists

end ShieldReduce.Prototype
