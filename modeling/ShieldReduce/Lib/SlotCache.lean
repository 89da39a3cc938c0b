import Mathlib.Data.List.Perm.Subperm
import Mathlib.Logic.Function.Basic
import ShieldReduce.Lib.Lru

/-!
# A cache of slots

A least recently used map from names to the slots of a pool. The pool has a size and a fill counter
of its own: a pool that is full gives the slot of the last name to the new one.
-/

namespace ShieldReduce.Lib

/-- The pool has the slots below `cacheSize`. -/
structure SlotCache (K D : Type) where
  cacheSize : Nat
  index : Lru K Nat
  pool : Nat → D
  currentIndex : Nat

namespace SlotCache
variable {K D : Type} [DecidableEq K]

section Operations
variable (c : SlotCache K D) (name : K)

def existsIn : Bool := c.index.contains name

/-- Writes into a slot and maps the name to it; `none`: the pool has no such slot. -/
def store (slot : Nat) (write : D → D) : Option (SlotCache K D) :=
  if slot < c.cacheSize then
    some { c with
      index := c.index.insert name slot
      pool := Function.update c.pool slot (write (c.pool slot)) }
  else none

def insertTo (write : D → D) : Option (SlotCache K D) :=
  if c.cacheSize < c.index.size + 1 then
    c.index.pruneValue.bind fun replaceIndex => c.store name replaceIndex write
  else (c.store name c.currentIndex write).map fun c' => { c' with currentIndex := c.currentIndex + 1 }

/-- `none`: the name is not there, or the pool has no such slot. -/
def readFrom : Option (D × SlotCache K D) :=
  (c.index.get name).bind fun r =>
    if r.1 < c.cacheSize then some (c.pool r.1, { c with index := r.2 }) else none

end Operations

/-- The slots of the names. -/
def slots (c : SlotCache K D) : List Nat := c.index.keys.map Prod.snd

/-- What the names stand for, the latest first. -/
def contents (c : SlotCache K D) : List (K × D) := c.index.keys.map fun p => (p.1, c.pool p.2)

/-- After `m` insertions of names that were not there. -/
structure Sound (c : SlotCache K D) (m : Nat) : Prop where
  index : c.index.Ok
  slots : c.slots.Nodup
  below : ∀ slot ∈ c.slots, slot < c.currentIndex
  filled : c.currentIndex = min m c.cacheSize
  size : c.index.size = min m c.index.maxSize

section Sound
variable {c : SlotCache K D} {m : Nat} {name : K}

omit [DecidableEq K] in
theorem slots_length (c : SlotCache K D) : c.slots.length = c.index.size := List.length_map ..

omit [DecidableEq K] in
theorem Sound.lt (h : c.Sound m) {slot : Nat} (hslot : slot ∈ c.slots) : slot < c.cacheSize := by
  have hlt := h.below slot hslot
  have hfilled := h.filled
  omega

theorem slot_mem {slot : Nat} (h : c.index.lookup name = some slot) : slot ∈ c.slots :=
  List.mem_map.mpr ⟨_, Lru.lookup_some_mem h, rfl⟩

omit [DecidableEq K] in
theorem Sound.slot_inj (h : c.Sound m) {k k' : K} {slot : Nat} (hk : (k, slot) ∈ c.index.keys)
    (hk' : (k', slot) ∈ c.index.keys) : k = k' :=
  (Prod.mk.inj (List.inj_on_of_nodup_map h.slots hk hk' rfl)).1

theorem Sound.distinct (h : c.Sound m) {k k' : K} {slot : Nat}
    (hk : c.index.lookup k = some slot) (hk' : c.index.lookup k' = some slot) : k = k' :=
  h.slot_inj (Lru.lookup_some_mem hk) (Lru.lookup_some_mem hk')

theorem slots_nodup (h : c.index.Ok) (hdistinct : ∀ {k k' slot}, c.index.lookup k = some slot →
    c.index.lookup k' = some slot → k = k') : c.slots.Nodup := by
  apply List.Nodup.map_on
  · intro p hp q hq hpq
    have hp' : c.index.lookup p.1 = some p.2 := Lru.lookup_of_mem h.nodup hp
    have hq' : c.index.lookup q.1 = some p.2 := by
      rw [hpq]
      exact Lru.lookup_of_mem h.nodup hq
    exact Prod.ext (hdistinct hp' hq') hpq
  · exact h.nodup.of_map _

/-- Reading hands out the slot of the name and keeps the rest. -/
theorem Sound.readFrom (h : c.Sound m) {slot : Nat} (hslot : c.index.lookup name = some slot) :
    ∃ c', c.readFrom name = some (c.pool slot, c') ∧ c'.Sound m ∧ c'.cacheSize = c.cacheSize ∧
      c'.index = c.index.splice name slot ∧ c'.pool = c.pool := by
  have hlt := h.lt (slot_mem hslot)
  refine ⟨{ c with index := c.index.splice name slot }, ?_, ?_, rfl, rfl, rfl⟩
  · unfold SlotCache.readFrom Lru.get
    rw [hslot, Option.map_some, Option.bind_some, if_pos hlt]
  · have hok := h.index.splice hslot
    have hperm := Lru.splice_perm h.index.nodup hslot
    exact {
      index := hok
      slots := (hperm.map Prod.snd).nodup_iff.mpr h.slots
      below := fun slot' hslot' => h.below slot' ((hperm.map Prod.snd).mem_iff.mp hslot')
      filled := h.filled
      size := hperm.length_eq.trans h.size }

omit [DecidableEq K] in
/-- The slot of the last name, and what the others keep. -/
theorem pruneValue_full (hpos : 0 < c.index.size) :
    ∃ victim, c.index.pruneValue = some victim.2 ∧ victim ∈ c.index.keys ∧
      c.index.keys = c.index.keys.dropLast ++ [victim] := by
  have hne : c.index.keys ≠ [] := List.ne_nil_of_length_pos hpos
  refine ⟨c.index.keys.getLast hne, ?_, List.getLast_mem hne,
    (List.dropLast_append_getLast hne).symm⟩
  unfold Lru.pruneValue
  rw [List.getLast?_eq_some_getLast hne]
  rfl

theorem store_eq {slot : Nat} (hslot : slot < c.cacheSize) (write : D → D) :
    c.store name slot write = some { c with
      index := c.index.insert name slot
      pool := Function.update c.pool slot (write (c.pool slot)) } := if_pos hslot

/-- What an insertion leaves: the new name has a slot of its own, which holds what was written. -/
structure Inserted (c : SlotCache K D) (name : K) (write : D → D) (c' : SlotCache K D) : Prop where
  cacheSize : c'.cacheSize = c.cacheSize
  names : c'.index.names = (name :: c.index.names).take c.index.maxSize
  maxSize : c'.index.maxSize = c.index.maxSize
  held : ∀ {k slot}, c'.index.lookup k = some slot →
    (k = name ∧ ∃ d, c'.pool slot = write d) ∨
      (c.index.lookup k = some slot ∧ c'.pool slot = c.pool slot)
  contents : ∃ d, c'.contents = ((name, write d) :: c.contents).take c.index.maxSize

/-- It is enough that the new name shares its slot with no other. -/
theorem inserted_of_nodup (h : c.index.Ok) (hname : c.existsIn name = false) {slot : Nat}
    (hnodup : ((c.index.insert name slot).keys.map Prod.snd).Nodup) (write : D → D) (n : Nat) :
    Inserted c name write {
      cacheSize := c.cacheSize
      index := c.index.insert name slot
      pool := Function.update c.pool slot (write (c.pool slot))
      currentIndex := n } := by
  refine ⟨rfl, h.names_insert hname _, h.maxSize_insert hname _, ?_, c.pool slot, ?_⟩
  · intro k slot' hk
    dsimp only at hk ⊢
    rcases h.lookup_insert hname _ hk with ⟨rfl, rfl⟩ | hold
    · exact Or.inl ⟨rfl, c.pool slot', Function.update_self ..⟩
    · have hne : slot' ≠ slot := by
        rintro rfl
        have hself := Lru.lookup_some_mem (h.lookup_insert_self hname slot')
        have heq := List.inj_on_of_nodup_map hnodup (Lru.lookup_some_mem hk) hself rfl
        obtain rfl := (Prod.mk.inj heq).1
        unfold SlotCache.existsIn Lru.contains at hname
        rw [hold] at hname
        simp at hname
      exact Or.inr ⟨hold, Function.update_of_ne hne _ _⟩
  · obtain ⟨n, hn⟩ := Nat.exists_eq_succ_of_ne_zero (Nat.ne_of_gt h.bounded)
    unfold SlotCache.contents
    dsimp only
    rw [h.keys_insert hname, hn, List.take_succ_cons] at hnodup ⊢
    rw [List.map_cons, List.take_succ_cons, Function.update_self, ← List.map_take]
    congr 1
    apply List.map_congr_left
    intro p hp
    have hne : p.2 ≠ slot := by
      intro heq
      have hmem : p.2 ∈ (c.index.keys.take n).map Prod.snd := List.mem_map_of_mem hp
      rw [heq] at hmem
      exact (List.nodup_cons.mp hnodup).1 hmem
    rw [Function.update_of_ne hne]

/-- While the pool has a free slot, the name gets it. -/
theorem Sound.insertTo_free (h : c.Sound m) (hname : c.existsIn name = false)
    (hfree : m < c.cacheSize) (write : D → D) :
    ∃ c', c.insertTo name write = some c' ∧ c'.Sound (m + 1) ∧ Inserted c name write c' := by
  have hcur : c.currentIndex = m := by
    have hfilled := h.filled
    omega
  have hsize : ¬c.cacheSize < c.index.size + 1 := by
    have hle := h.size
    omega
  have hkeys := h.index.keys_insert hname c.currentIndex
  have hslots : ((c.index.insert name c.currentIndex).keys.map Prod.snd) =
      (c.currentIndex :: c.slots).take c.index.maxSize := by
    rw [hkeys, List.map_take]
    rfl
  have hnew : c.currentIndex ∉ c.slots := fun hmem => Nat.lt_irrefl _ (h.below _ hmem)
  have hnodup : ((c.index.insert name c.currentIndex).keys.map Prod.snd).Nodup := by
    rw [hslots]
    exact (List.nodup_cons.mpr ⟨hnew, h.slots⟩).take
  refine ⟨_, ?_, ?_, inserted_of_nodup h.index hname hnodup write (c.currentIndex + 1)⟩
  · unfold SlotCache.insertTo
    rw [if_neg hsize, store_eq (by omega)]
    rfl
  · refine ⟨h.index.insert hname _, hnodup, ?_, ?_, ?_⟩
    · intro slot hslot
      change slot ∈ (c.index.insert name c.currentIndex).keys.map Prod.snd at hslot
      rw [hslots] at hslot
      rcases List.mem_cons.mp (List.mem_of_mem_take hslot) with rfl | hmem
      · exact Nat.lt_succ_self _
      · exact Nat.lt_succ_of_lt (h.below _ hmem)
    · dsimp only
      omega
    · have hle : c.index.keys.length = min m c.index.maxSize := h.size
      change (c.index.insert name c.currentIndex).keys.length =
        min (m + 1) (c.index.insert name c.currentIndex).maxSize
      rw [h.index.maxSize_insert hname, hkeys, List.length_take, List.length_cons]
      omega

/-- A full pool of the size of the map gives the slot of the name that the map drops. -/
theorem Sound.insertTo_full (h : c.Sound m) (hname : c.existsIn name = false)
    (hsame : c.cacheSize = c.index.maxSize) (hfull : c.cacheSize ≤ m) (write : D → D) :
    ∃ c', c.insertTo name write = some c' ∧ c'.Sound (m + 1) ∧ Inserted c name write c' := by
  have hpos := h.index.bounded
  have hsize : c.index.size = c.index.maxSize := by
    have hle := h.size
    omega
  obtain ⟨victim, hprune, hmem, hlast⟩ := pruneValue_full (c := c) (by omega)
  have hvictim : victim.2 ∈ c.slots := List.mem_map_of_mem hmem
  have hkeys : (c.index.insert name victim.2).keys =
      (name, victim.2) :: c.index.keys.dropLast := h.index.keys_insert_full hname hsize _
  have hslots : c.slots = c.index.keys.dropLast.map Prod.snd ++ [victim.2] := by
    unfold SlotCache.slots
    conv_lhs => rw [hlast]
    rw [List.map_append]
    rfl
  have hperm : (victim.2 :: c.index.keys.dropLast.map Prod.snd).Perm c.slots := by
    rw [hslots]
    exact (List.perm_append_singleton _ _).symm
  have hnew : ((c.index.insert name victim.2).keys.map Prod.snd) =
      victim.2 :: c.index.keys.dropLast.map Prod.snd := by
    rw [hkeys]
    rfl
  have hnodup : ((c.index.insert name victim.2).keys.map Prod.snd).Nodup := by
    rw [hnew]
    exact hperm.nodup_iff.mpr h.slots
  refine ⟨_, ?_, ?_, inserted_of_nodup h.index hname hnodup write c.currentIndex⟩
  · unfold SlotCache.insertTo
    rw [if_pos (by omega), hprune, Option.bind_some, store_eq (h.lt hvictim)]
  · refine ⟨h.index.insert hname _, hnodup, ?_, ?_, ?_⟩
    · intro slot hslot
      change slot ∈ (c.index.insert name victim.2).keys.map Prod.snd at hslot
      rw [hnew] at hslot
      exact h.below slot (hperm.mem_iff.mp hslot)
    · have hfilled := h.filled
      dsimp only
      omega
    · have hlen : (c.index.insert name victim.2).keys.length = c.index.keys.length := by
        have hslots := congrArg List.length hnew
        rw [hperm.length_eq, slots_length, List.length_map] at hslots
        exact hslots
      change (c.index.insert name victim.2).keys.length =
        min (m + 1) (c.index.insert name victim.2).maxSize
      rw [h.index.maxSize_insert hname, hlen]
      change c.index.keys.length = c.index.maxSize at hsize
      omega

/-- A pool of the size of the map, or one that does not get full, stays sound. -/
theorem Sound.insertTo (h : c.Sound m) (hname : c.existsIn name = false)
    (hroom : c.cacheSize = c.index.maxSize ∨ m < c.cacheSize) (write : D → D) :
    ∃ c', c.insertTo name write = some c' ∧ c'.Sound (m + 1) ∧ Inserted c name write c' := by
  by_cases hfree : m < c.cacheSize
  · exact h.insertTo_free hname hfree write
  · exact h.insertTo_full hname (hroom.resolve_right hfree) (Nat.le_of_not_lt hfree) write

end Sound

section Contents
variable {c : SlotCache K D} {name : K}

theorem contents_find (c : SlotCache K D) (name : K) :
    (c.contents.find? fun p => p.1 = name) =
      (c.index.lookup name).map fun slot => (name, c.pool slot) := by
  unfold contents Lru.lookup
  rw [List.find?_map, Option.map_map]
  change (c.index.keys.find? fun p => p.1 = name).map _ = _
  cases hfind : c.index.keys.find? fun p => p.1 = name with
  | none => rfl
  | some p =>
    have hp : p.1 = name := by simpa using List.find?_some hfind
    rw [← hp]
    rfl

theorem contents_splice {slot : Nat} (c : SlotCache K D) (name : K) :
    contents { c with index := c.index.splice name slot } =
      (name, c.pool slot) :: c.contents.filter fun p => p.1 ≠ name := by
  unfold contents Lru.splice
  dsimp only
  rw [List.map_cons, List.filter_map]
  rfl

end Contents

section Crowded
variable {c : SlotCache K D} {m : Nat} {name : K}

/-- What holds after `m` insertions whatever the two sizes are. -/
structure Tracked (c : SlotCache K D) (m : Nat) : Prop where
  index : c.index.Ok
  lt : ∀ slot ∈ c.slots, slot < c.cacheSize
  filled : c.currentIndex ≤ c.cacheSize
  count : c.index.maxSize < c.cacheSize → c.currentIndex = m
  size : c.index.size = min m c.index.maxSize

theorem store_some {slot : Nat} {write : D → D} {c' : SlotCache K D}
    (h : c.store name slot write = some c') : slot < c.cacheSize ∧ c' = { c with
      index := c.index.insert name slot
      pool := Function.update c.pool slot (write (c.pool slot)) } := by
  unfold store at h
  by_cases hslot : slot < c.cacheSize
  · rw [if_pos hslot] at h
    exact ⟨hslot, (Option.some.inj h).symm⟩
  · rw [if_neg hslot] at h
    simp at h

theorem insertTo_some {write : D → D} {c' : SlotCache K D}
    (h : c.insertTo name write = some c') : ∃ slot < c.cacheSize,
      c'.cacheSize = c.cacheSize ∧ c'.index = c.index.insert name slot ∧
      (c.cacheSize < c.index.size + 1 → c'.currentIndex = c.currentIndex) ∧
      (c.index.size + 1 ≤ c.cacheSize →
        c'.currentIndex = c.currentIndex + 1 ∧ c.currentIndex < c.cacheSize) := by
  unfold insertTo at h
  by_cases hfull : c.cacheSize < c.index.size + 1
  · rw [if_pos hfull] at h
    obtain ⟨slot, -, hstore⟩ := Option.bind_eq_some_iff.mp h
    obtain ⟨hslot, rfl⟩ := store_some hstore
    exact ⟨slot, hslot, rfl, rfl, fun _ => rfl, fun hle => by omega⟩
  · rw [if_neg hfull] at h
    obtain ⟨c'', hstore, rfl⟩ := Option.map_eq_some_iff.mp h
    obtain ⟨hslot, rfl⟩ := store_some hstore
    exact ⟨_, hslot, rfl, rfl, fun hlt => absurd hlt hfull, fun _ => ⟨rfl, hslot⟩⟩

/-- The slot that the next insertion writes. -/
def nextSlot (c : SlotCache K D) : Option Nat :=
  if c.cacheSize < c.index.size + 1 then c.index.pruneValue else some c.currentIndex

theorem insertTo_pool {write : D → D} {c' : SlotCache K D}
    (h : c.insertTo name write = some c') : ∃ slot, c.nextSlot = some slot ∧
      c'.pool = Function.update c.pool slot (write (c.pool slot)) := by
  unfold insertTo at h
  unfold nextSlot
  by_cases hfull : c.cacheSize < c.index.size + 1
  · rw [if_pos hfull] at h ⊢
    obtain ⟨slot, hslot, hstore⟩ := Option.bind_eq_some_iff.mp h
    obtain ⟨_, rfl⟩ := store_some hstore
    exact ⟨slot, hslot, rfl⟩
  · rw [if_neg hfull] at h ⊢
    obtain ⟨c'', hstore, rfl⟩ := Option.map_eq_some_iff.mp h
    obtain ⟨_, rfl⟩ := store_some hstore
    exact ⟨_, rfl, rfl⟩

theorem Tracked.insertTo (h : c.Tracked m) (hname : c.existsIn name = false) {write : D → D}
    {c' : SlotCache K D} (hc' : c.insertTo name write = some c') :
    c'.Tracked (m + 1) ∧ c'.cacheSize = c.cacheSize ∧ c'.index.maxSize = c.index.maxSize ∧
      c'.index.names = (name :: c.index.names).take c.index.maxSize := by
  obtain ⟨slot, hslot, hsize, hindex, hevict, hfree⟩ := insertTo_some hc'
  have hmax : c'.index.maxSize = c.index.maxSize := by
    rw [hindex]
    exact h.index.maxSize_insert hname _
  have hkeys : c'.index.keys = ((name, slot) :: c.index.keys).take c.index.maxSize := by
    rw [hindex, h.index.keys_insert hname]
  refine ⟨⟨?_, ?_, ?_, ?_, ?_⟩, hsize, hmax, ?_⟩
  · rw [hindex]
    exact h.index.insert hname _
  · intro slot' hslot'
    unfold slots at hslot'
    rw [hkeys, List.map_take] at hslot'
    rw [hsize]
    rcases List.mem_cons.mp (List.mem_of_mem_take hslot') with rfl | hmem
    · exact hslot
    · exact h.lt slot' hmem
  · have hfilled := h.filled
    omega
  · intro hlt
    have hle := h.size
    have hcount := h.count
    omega
  · have hle : c.index.keys.length = min m c.index.maxSize := h.size
    unfold Lru.size
    rw [hkeys, hmax, List.length_take, List.length_cons]
    omega
  · rw [hindex]
    exact h.index.names_insert hname _

theorem Tracked.readFrom (h : c.Tracked m) {r : D × SlotCache K D}
    (hr : c.readFrom name = some r) : r.2.Tracked m ∧ r.2.cacheSize = c.cacheSize ∧
      r.2.index.maxSize = c.index.maxSize ∧
      ∃ slot, c.index.lookup name = some slot ∧ r.2.index = c.index.splice name slot := by
  unfold SlotCache.readFrom at hr
  obtain ⟨x, hget, hr⟩ := Option.bind_eq_some_iff.mp hr
  obtain ⟨slot, hslot, rfl⟩ := Option.map_eq_some_iff.mp hget
  have hlt := h.lt slot (slot_mem hslot)
  dsimp only at hr
  rw [if_pos hlt] at hr
  obtain rfl := Option.some.inj hr
  have hperm := Lru.splice_perm h.index.nodup hslot
  refine ⟨⟨h.index.splice hslot, ?_, h.filled, h.count, hperm.length_eq.trans h.size⟩,
    rfl, rfl, slot, hslot, rfl⟩
  intro slot' hslot'
  exact h.lt slot' ((hperm.map Prod.snd).mem_iff.mp hslot')

omit [DecidableEq K] in
/-- A pool that is not of the size of the map has a slot for every name only until it is full. -/
theorem Tracked.le_of_nodup (h : c.Tracked m) (hne : c.cacheSize ≠ c.index.maxSize)
    (hnodup : c.slots.Nodup) : m ≤ c.cacheSize := by
  by_cases hlt : c.index.maxSize < c.cacheSize
  · have hcount := h.count hlt
    have hfilled := h.filled
    omega
  · have hlen : c.slots.length ≤ c.cacheSize := by
      have hsub : c.slots ⊆ List.range c.cacheSize := by
        intro slot hslot
        exact List.mem_range.mpr (h.lt slot hslot)
      have hle := (List.subperm_of_subset hnodup hsub).length_le
      rwa [List.length_range] at hle
    have hsize := h.size
    rw [slots_length] at hlen
    omega

end Crowded

end SlotCache

end ShieldReduce.Lib
