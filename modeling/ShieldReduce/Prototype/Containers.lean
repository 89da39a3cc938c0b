import ShieldReduce.Prototype.System

/-!
# The records behind the containers

`Records` says which records every container has, wherever its bytes are: in an enclave buffer, in
the writer's queue, in the file being written or in a complete file. `Holds` ties it to the bytes,
path by path; each operation on containers keeps it.
-/

namespace ShieldReduce.Prototype
open Lib Store EDelta

abbrev Records : Type := Path → Option (List ChunkRecord)

section Names

def Drawn (times : Nat) (name : ContainerName) : Prop := ∃ k < times, name = CreateUUID k

theorem Drawn.mono {times times' : Nat} {name : ContainerName} (h : Drawn times name)
    (hle : times ≤ times') : Drawn times' name := by
  obtain ⟨k, hk, hname⟩ := h
  exact ⟨k, by omega, hname⟩

theorem digits_inj {n a b : Nat} (ha : a < 36 ^ n) (hb : b < 36 ^ n)
    (h : ∀ i < n, a / 36 ^ i % 36 = b / 36 ^ i % 36) : a = b := by
  induction n generalizing a b with
  | zero => omega
  | succ n ih =>
    rw [Nat.pow_succ] at ha hb
    have hlow : a % 36 = b % 36 := by simpa using h 0 (Nat.succ_pos n)
    have hhigh : a / 36 = b / 36 := by
      apply ih (by omega) (by omega)
      intro i hi
      have hi' := h (i + 1) (by omega)
      rw [Nat.pow_succ', ← Nat.div_div_eq_div_mul, ← Nat.div_div_eq_div_mul] at hi'
      exact hi'
    omega

theorem ALPHABET_inj {a b : Nat} (ha : a < 36) (hb : b < 36) (h : ALPHABET a = ALPHABET b) :
    a = b := by
  have hall : ∀ a < 36, ∀ b < 36, ALPHABET a = ALPHABET b → a = b := by decide
  exact hall a ha b hb h

theorem CreateUUID_inj {a b : Nat} (ha : a < 2 ^ 31) (hb : b < 2 ^ 31)
    (h : CreateUUID a = CreateUUID b) : a = b := by
  have hval := congrArg Subtype.val h
  unfold CreateUUID at hval
  rw [List.map_inj_left] at hval
  have hpow : (2 : Nat) ^ 31 ≤ 36 ^ 7 := by decide
  apply @digits_inj 7 a b (by omega) (by omega)
  intro i hi
  have hdigit := hval (6 - i) (List.mem_range.mpr (by omega))
  rw [show 6 - (6 - i) = i by omega] at hdigit
  exact ALPHABET_inj (Nat.mod_lt _ (by decide)) (Nat.mod_lt _ (by decide)) hdigit

theorem not_drawn_self {times : Nat} (h : times < 2 ^ 31) : ¬Drawn times (CreateUUID times) := by
  rintro ⟨k, hk, hname⟩
  have := CreateUUID_inj h (by omega) hname
  omega

end Names

variable (env : EnclaveEnv)

/-- A record that may stand in the directory `d`. Whatever base a delta is decoded against, the
result fits the buffer of a chunk. -/
structure RecordOk (d : Bool) (r : ChunkRecord) : Prop where
  kind : r.entry.deltaFlag = if d then DELTA else NO_DELTA
  content : r.content.length ≤ MAX_CHUNK_SIZE
  decode : d = true → ∀ base,
    (EDeltaDecode (env.DecryptionWithKeyIV r.iv r.content) base).length ≤ MAX_CHUNK_SIZE

structure PackedAt (p : Path) (rs : List ChunkRecord) : Prop where
  packed : PackedFrom p.2 0 rs
  fits : (layout rs).length < MAX_CONTAINER_SIZE
  ok : ∀ r ∈ rs, RecordOk env p.1 r

/-- The containers of a server lifetime: their names have been drawn, each for one directory. -/
structure RecordsOk (times : Nat) (R : Records) : Prop where
  packed : ∀ {p rs}, R p = some rs → PackedAt env p rs
  drawn : ∀ {p rs}, R p = some rs → Drawn times p.2
  oneDir : ∀ {name rs}, R (true, name) = some rs → R (false, name) = none

/-- Where the bytes of one container are: in the enclave, in the queue, with the writer or in a
complete file. -/
inductive HoldsAt : Option Bytes → List Container → Option (Container × Nat) → Option Bytes →
    Option (List ChunkRecord) → Prop
  | absent : HoldsAt none [] none none none
  | opened (rs : List ChunkRecord) : HoldsAt (some (layout rs)) [] none none (some rs)
  | queued (c : Container) (rs : List ChunkRecord) (hbody : c.body = layout rs) :
    HoldsAt none [c] none none (some rs)
  | writing (c : Container) (n : Nat) (rs : List ChunkRecord) (hbody : c.body = layout rs)
    (hn : n ≤ c.body.length) : HoldsAt none [] (some (c, n)) (some (c.body.take n)) (some rs)
  | written (rs : List ChunkRecord) : HoldsAt none [] none (some (layout rs)) (some rs)

def queuedAt (queue : List Container) (p : Path) : List Container :=
  queue.filter fun c => c.path = p

def writingAt (writer : Option (Container × Nat)) (p : Path) : Option (Container × Nat) :=
  writer.filter fun w => w.1.path = p

/-- The bytes of the containers are the layout of their records. -/
structure Holds (writer : Option (Container × Nat)) (queue : List Container)
    (opens : Path → Option Bytes) (files : Table Path Bytes) (times : Nat) (R : Records) :
    Prop where
  ok : RecordsOk env times R
  place : ∀ p, HoldsAt (opens p) (queuedAt queue p) (writingAt writer p) (files.lookup p) (R p)

section RecordsOk
variable {env} {times : Nat} {R : Records}

theorem packedAt_nil (p : Path) : PackedAt env p [] :=
  ⟨trivial, by rw [layout_nil]; decide, by simp⟩

theorem PackedAt.snoc {p : Path} {rs : List ChunkRecord} {r : ChunkRecord}
    (h : PackedAt env p rs) (hname : r.entry.containerName = p.2)
    (hoff : r.entry.offset.toNat = (layout rs).length)
    (hlen : r.entry.length.toNat = r.content.length) (hok : RecordOk env p.1 r)
    (hfits : (layout rs).length + r.size < MAX_CONTAINER_SIZE) : PackedAt env p (rs ++ [r]) := by
  refine ⟨?_, ?_, ?_⟩
  · rw [packedFrom_append]
    refine ⟨h.packed, hname, ?_, hlen, trivial⟩
    rw [hoff, Nat.zero_add]
  · rw [layout_append, layout_singleton, List.length_append, ChunkRecord.toBytes_length]
    exact hfits
  · intro r' hr'
    rcases List.mem_append.mp hr' with hr' | hr'
    · exact h.ok r' hr'
    · rw [List.mem_singleton.mp hr']
      exact hok

theorem RecordsOk.fresh (h : RecordsOk env times R) (htimes : times < 2 ^ 31) (d : Bool) :
    R (d, CreateUUID times) = none := by
  cases hr : R (d, CreateUUID times) with
  | none => rfl
  | some rs => exact absurd (h.drawn hr) (not_drawn_self htimes)

theorem RecordsOk.mono (h : RecordsOk env times R) {times' : Nat} (hle : times ≤ times') :
    RecordsOk env times' R :=
  ⟨h.packed, fun hr => (h.drawn hr).mono hle, h.oneDir⟩

/-- A container gets other records. -/
theorem RecordsOk.update (h : RecordsOk env times R) {p : Path} {rs rs' : List ChunkRecord}
    (hp : R p = some rs) (hrs' : PackedAt env p rs') :
    RecordsOk env times (Function.update R p (some rs')) := by
  have hsome : ∀ {q new}, Function.update R p (some rs') q = some new →
      ∃ old, R q = some old := by
    intro q new hq
    by_cases hqp : q = p
    · exact ⟨rs, by rw [hqp, hp]⟩
    · rw [Function.update_of_ne hqp] at hq
      exact ⟨new, hq⟩
  refine ⟨?_, ?_, ?_⟩
  · intro q new hq
    by_cases hqp : q = p
    · subst hqp
      rw [Function.update_self, Option.some.injEq] at hq
      rw [← hq]
      exact hrs'
    · rw [Function.update_of_ne hqp] at hq
      exact h.packed hq
  · intro q new hq
    obtain ⟨old, hold⟩ := hsome hq
    exact h.drawn hold
  · intro name new hname
    obtain ⟨old, hold⟩ := hsome hname
    have hnone := h.oneDir hold
    have hne : (false, name) ≠ p := by
      rintro rfl
      rw [hp] at hnone
      simp at hnone
    rw [Function.update_of_ne hne]
    exact hnone

theorem RecordsOk.remove (h : RecordsOk env times R) (p : Path) :
    RecordsOk env times (Function.update R p none) := by
  have hsome : ∀ {q rs}, Function.update R p none q = some rs → R q = some rs := by
    intro q rs hq
    by_cases hqp : q = p
    · subst hqp
      rw [Function.update_self] at hq
      simp at hq
    · rwa [Function.update_of_ne hqp] at hq
  refine ⟨fun hq => h.packed (hsome hq), fun hq => h.drawn (hsome hq), ?_⟩
  intro name rs hname
  by_cases hne : (false, name) = p
  · rw [hne, Function.update_self]
  · rw [Function.update_of_ne hne]
    exact h.oneDir (hsome hname)

/-- A new container under the next name. -/
theorem RecordsOk.draw (h : RecordsOk env times R) (htimes : times < 2 ^ 31) (d : Bool) :
    RecordsOk env (times + 1) (Function.update R (d, CreateUUID times) (some [])) := by
  refine ⟨?_, ?_, ?_⟩
  · intro q rs hq
    by_cases hqp : q = (d, CreateUUID times)
    · subst hqp
      rw [Function.update_self, Option.some.injEq] at hq
      rw [← hq]
      exact packedAt_nil _
    · rw [Function.update_of_ne hqp] at hq
      exact h.packed hq
  · intro q rs hq
    by_cases hqp : q = (d, CreateUUID times)
    · subst hqp
      exact ⟨times, Nat.lt_succ_self times, rfl⟩
    · rw [Function.update_of_ne hqp] at hq
      exact (h.drawn hq).mono (Nat.le_succ times)
  · intro name rs hrs
    by_cases hn : name = CreateUUID times
    · subst hn
      cases d with
      | true =>
        rw [Function.update_of_ne (by simp)]
        exact h.fresh htimes false
      | false =>
        rw [Function.update_of_ne (by simp), h.fresh htimes true] at hrs
        simp at hrs
    · rw [Function.update_of_ne (by simp [hn])] at hrs
      rw [Function.update_of_ne (by simp [hn])]
      exact h.oneDir hrs

end RecordsOk

section HoldsAt
variable {o : Option Bytes} {q : List Container} {w : Option (Container × Nat)} {f : Option Bytes}
  {r : Option (List ChunkRecord)}

theorem HoldsAt.of_absent (h : HoldsAt o q w f none) : o = none ∧ q = [] ∧ w = none ∧ f = none := by
  cases h
  exact ⟨rfl, rfl, rfl, rfl⟩

theorem HoldsAt.of_open {b : Bytes} (h : HoldsAt (some b) q w f r) :
    q = [] ∧ w = none ∧ f = none ∧ ∃ rs, r = some rs ∧ b = layout rs := by
  cases h with
  | opened rs => exact ⟨rfl, rfl, rfl, rs, rfl, rfl⟩

theorem HoldsAt.of_file {b : Bytes} (h : HoldsAt o q none (some b) r) :
    o = none ∧ q = [] ∧ ∃ rs, r = some rs ∧ b = layout rs := by
  cases h with
  | written rs => exact ⟨rfl, rfl, rs, rfl, rfl⟩

theorem HoldsAt.of_writing {c : Container} {n : Nat} (h : HoldsAt o q (some (c, n)) f r) :
    o = none ∧ q = [] ∧ f = some (c.body.take n) ∧ n ≤ c.body.length ∧
      ∃ rs, r = some rs ∧ c.body = layout rs := by
  cases h with
  | writing c n rs hbody hn => exact ⟨rfl, rfl, rfl, hn, rs, rfl, hbody⟩

theorem HoldsAt.of_queued {c : Container} {cs : List Container} (h : HoldsAt o (c :: cs) w f r) :
    o = none ∧ cs = [] ∧ w = none ∧ f = none ∧ ∃ rs, r = some rs ∧ c.body = layout rs := by
  cases h with
  | queued c rs hbody => exact ⟨rfl, rfl, rfl, rfl, rs, rfl, hbody⟩

end HoldsAt

section Holds
variable {env} {writer : Option (Container × Nat)} {queue : List Container}
  {opens : Path → Option Bytes} {files : Table Path Bytes} {times : Nat} {R : Records}

theorem queuedAt_append (queue : List Container) (c : Container) (p : Path) :
    queuedAt (queue ++ [c]) p = if c.path = p then queuedAt queue p ++ [c] else queuedAt queue p := by
  unfold queuedAt
  rw [List.filter_append]
  by_cases h : c.path = p
  · simp [h]
  · simp [h]

theorem queuedAt_cons (queue : List Container) (c : Container) (p : Path) :
    queuedAt (c :: queue) p = if c.path = p then c :: queuedAt queue p else queuedAt queue p := by
  unfold queuedAt
  by_cases h : c.path = p
  · simp [h]
  · simp [h]

theorem writingAt_some (c : Container) (n : Nat) (p : Path) :
    writingAt (some (c, n)) p = if c.path = p then some (c, n) else none := by
  unfold writingAt
  by_cases h : c.path = p
  · simp [h]
  · simp [h]

theorem Holds.mono (h : Holds env writer queue opens files times R) {times' : Nat}
    (hle : times ≤ times') : Holds env writer queue opens files times' R :=
  ⟨h.ok.mono hle, h.place⟩

/-- A new empty container under a freshly drawn name. -/
theorem Holds.openNew (h : Holds env writer queue opens files times R) (htimes : times < 2 ^ 31)
    (d : Bool) :
    Holds env writer queue (Function.update opens (d, CreateUUID times) (some [])) files
      (times + 1) (Function.update R (d, CreateUUID times) (some [])) := by
  refine ⟨h.ok.draw htimes d, ?_⟩
  intro p
  have hp := h.place p
  by_cases hpe : p = (d, CreateUUID times)
  · subst hpe
    rw [h.ok.fresh htimes d] at hp
    obtain ⟨_, hq, hw, hf⟩ := hp.of_absent
    rw [Function.update_self, Function.update_self, hq, hw, hf]
    exact HoldsAt.opened []
  · rw [Function.update_of_ne hpe, Function.update_of_ne hpe]
    exact hp

/-- An open container goes to the writer. -/
theorem Holds.enqueue (h : Holds env writer queue opens files times R) {c : Container}
    (hc : opens c.path = some c.body) :
    Holds env writer (queue ++ [c]) (Function.update opens c.path none) files times R := by
  refine ⟨h.ok, ?_⟩
  intro p
  have hp := h.place p
  rw [queuedAt_append]
  by_cases hpe : p = c.path
  · subst hpe
    rw [hc] at hp
    obtain ⟨hq, hw, hf, rs, hrs, hb⟩ := hp.of_open
    rw [Function.update_self, if_pos rfl, hq, hw, hf, hrs]
    exact HoldsAt.queued c rs hb
  · rw [Function.update_of_ne hpe, if_neg (fun he => hpe he.symm)]
    exact hp

/-- An open container is lost. -/
theorem Holds.drop (h : Holds env writer queue opens files times R) {p : Path} {b : Bytes}
    (hb : opens p = some b) :
    Holds env writer queue (Function.update opens p none) files times (Function.update R p none) := by
  refine ⟨h.ok.remove p, ?_⟩
  intro p'
  have hp := h.place p'
  by_cases hpe : p' = p
  · subst hpe
    rw [hb] at hp
    obtain ⟨hq, hw, hf, _⟩ := hp.of_open
    rw [Function.update_self, Function.update_self, hq, hw, hf]
    exact HoldsAt.absent
  · rw [Function.update_of_ne hpe, Function.update_of_ne hpe]
    exact hp

/-- A record written for an open container goes behind its last one. -/
theorem Holds.append (h : Holds env writer queue opens files times R) {p : Path} {b : Bytes}
    {rs : List ChunkRecord} {r : ChunkRecord} (hp : opens p = some b) (hrs : R p = some rs)
    (hname : r.entry.containerName = p.2) (hoff : r.entry.offset.toNat = b.length)
    (hlen : r.entry.length.toNat = r.content.length) (hok : RecordOk env p.1 r)
    (hfits : b.length + r.size < MAX_CONTAINER_SIZE) :
    Holds env writer queue (Function.update opens p (some (b ++ r.toBytes))) files times
      (Function.update R p (some (rs ++ [r]))) := by
  have hplace := h.place p
  rw [hp, hrs] at hplace
  obtain ⟨hq, hw, hf, rs', hrs', hb⟩ := hplace.of_open
  rw [Option.some.injEq] at hrs'
  subst hrs'
  rw [hb] at hoff hfits
  refine ⟨h.ok.update hrs ((h.ok.packed hrs).snoc hname hoff hlen hok hfits), ?_⟩
  intro p'
  by_cases hpe : p' = p
  · subst hpe
    rw [Function.update_self, Function.update_self, hq, hw, hf, hb, ← layout_singleton,
      ← layout_append]
    exact HoldsAt.opened _
  · rw [Function.update_of_ne hpe, Function.update_of_ne hpe]
    exact h.place p'

/-- `fopen` of the next container in the queue. -/
theorem Holds.openFile {c : Container}
    (h : Holds env none (c :: queue) opens files times R) :
    Holds env (some (c, 0)) queue opens (files.insert c.path []) times R := by
  refine ⟨h.ok, ?_⟩
  intro p
  have hp := h.place p
  rw [queuedAt_cons] at hp
  rw [writingAt_some, Table.lookup_insert_ite]
  by_cases hpe : p = c.path
  · subst hpe
    rw [if_pos rfl] at hp
    obtain ⟨ho, hq, _, _, rs, hrs, hb⟩ := hp.of_queued
    rw [if_pos rfl, if_pos rfl, ho, hq, hrs, ← List.take_zero (l := c.body)]
    exact HoldsAt.writing c 0 rs hb (Nat.zero_le _)
  · rw [if_neg hpe, if_neg (fun he => hpe he.symm)]
    rw [if_neg (fun he => hpe he.symm)] at hp
    exact hp

theorem Holds.writeFile {c : Container} {n m : Nat}
    (h : Holds env (some (c, n)) queue opens files times R) (hm : m ≤ c.body.length) :
    Holds env (some (c, m)) queue opens (files.insert c.path (c.body.take m)) times R := by
  refine ⟨h.ok, ?_⟩
  intro p
  have hp := h.place p
  rw [writingAt_some] at hp
  rw [writingAt_some, Table.lookup_insert_ite]
  by_cases hpe : p = c.path
  · subst hpe
    rw [if_pos rfl] at hp
    obtain ⟨ho, hq, _, _, rs, hrs, hb⟩ := hp.of_writing
    rw [if_pos rfl, if_pos rfl, ho, hq, hrs]
    exact HoldsAt.writing c m rs hb hm
  · rw [if_neg hpe, if_neg (fun he => hpe he.symm)]
    rw [if_neg (fun he => hpe he.symm)] at hp
    exact hp

theorem Holds.closeFile {c : Container}
    (h : Holds env (some (c, c.body.length)) queue opens files times R) :
    Holds env none queue opens files times R := by
  refine ⟨h.ok, ?_⟩
  intro p
  have hp := h.place p
  rw [writingAt_some] at hp
  by_cases hpe : p = c.path
  · subst hpe
    rw [if_pos rfl] at hp
    obtain ⟨ho, hq, hf, _, rs, hrs, hb⟩ := hp.of_writing
    rw [List.take_length, hb] at hf
    rw [ho, hq, hf, hrs]
    exact HoldsAt.written rs
  · rw [if_neg (fun he => hpe he.symm)] at hp
    exact hp

/-- An open container is written to its file at once. -/
theorem Holds.saveFile (h : Holds env none queue opens files times R) {p : Path} {b : Bytes}
    (hb : opens p = some b) :
    Holds env none queue (Function.update opens p none) (files.insert p b) times R := by
  refine ⟨h.ok, ?_⟩
  intro p'
  have hp := h.place p'
  rw [Table.lookup_insert_ite]
  by_cases hpe : p' = p
  · subst hpe
    rw [hb] at hp
    obtain ⟨hq, hw, _, rs, hrs, hbody⟩ := hp.of_open
    rw [Function.update_self, if_pos rfl, hq, hw, hrs, hbody]
    exact HoldsAt.written rs
  · rw [Function.update_of_ne hpe, if_neg hpe]
    exact hp

/-- A complete file is replaced by one with other records. -/
theorem Holds.rewrite (h : Holds env none queue opens files times R) {p : Path} {b : Bytes}
    {rs : List ChunkRecord} (hb : files.lookup p = some b) (hrs : PackedAt env p rs) :
    Holds env none queue opens (files.insert p (layout rs)) times
      (Function.update R p (some rs)) := by
  have hplace := h.place p
  rw [hb] at hplace
  obtain ⟨ho, hq, rs', hrs', _⟩ := hplace.of_file
  refine ⟨h.ok.update hrs' hrs, ?_⟩
  intro p'
  rw [Table.lookup_insert_ite]
  by_cases hpe : p' = p
  · subst hpe
    rw [Function.update_self, if_pos rfl, ho, hq]
    exact HoldsAt.written rs
  · rw [Function.update_of_ne hpe, if_neg hpe]
    exact h.place p'

theorem Holds.unlink (h : Holds env none queue opens files times R) {p : Path} {b : Bytes}
    (hb : files.lookup p = some b) :
    Holds env none queue opens (files.erase p) times (Function.update R p none) := by
  refine ⟨h.ok.remove p, ?_⟩
  intro p'
  have hp := h.place p'
  rw [Table.lookup_erase_ite]
  by_cases hpe : p' = p
  · subst hpe
    rw [hb] at hp
    obtain ⟨ho, hq, _⟩ := hp.of_file
    rw [Function.update_self, if_pos rfl, ho, hq]
    exact HoldsAt.absent
  · rw [Function.update_of_ne hpe, if_neg hpe]
    exact hp

/-- With the writer idle, a file that is there is complete. -/
theorem Holds.file (h : Holds env none queue opens files times R) {p : Path} {b : Bytes}
    (hb : files.lookup p = some b) :
    ∃ rs, R p = some rs ∧ b = layout rs ∧ PackedAt env p rs := by
  have hp := h.place p
  rw [hb] at hp
  obtain ⟨_, _, rs, hrs, hbody⟩ := hp.of_file
  exact ⟨rs, hrs, hbody, h.ok.packed hrs⟩

end Holds

end ShieldReduce.Prototype
