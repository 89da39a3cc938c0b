import ShieldReduce.Prototype.Containers
import ShieldReduce.Prototype.DeltaIndex

/-!
# The entries behind the records

`E fp e` says that `e` is where the chunk `fp` is, in the index or in the batch that is about to
register it. Every record is the one its entry leads to, or its extent waits in `_cold_map` for
compaction.
-/

namespace ShieldReduce.Prototype
open Lib Store EDelta

/-- The file a recipe entry leads to. -/
def pathOf (e : RecipeEntry) : Path := (decide (e.deltaFlag = DELTA), e.containerName)

structure Indexed (E : Fp → RecipeEntry → Prop)
    (cold : Table ContainerName (List (UInt32 × UInt32))) (times : Nat) (R : Records) : Prop where
  unique : ∀ {fp e e'}, E fp e → E fp e' → e = e'
  flag : ∀ {fp e}, E fp e → e.deltaFlag = NO_DELTA ∨ e.deltaFlag = DELTA
  short : ∀ {fp e}, E fp e → e.length.toNat ≤ MAX_CHUNK_SIZE
  drawn : ∀ {fp e}, E fp e → Drawn times e.containerName
  entry : ∀ {fp e rs}, E fp e → R (pathOf e) = some rs → ∃ r ∈ rs, r.fp = fp ∧ r.entry = e
  live : ∀ {p rs r}, R p = some rs → r ∈ rs → ¬E r.fp r.entry → coldExtent r.entry ∈ Table.vec cold p.2
  dead : ∀ {name ext}, ext ∈ Table.vec cold name →
    ∃ d rs r, R (d, name) = some rs ∧ r ∈ rs ∧ ext = coldExtent r.entry ∧ ¬E r.fp r.entry
  dead_nodup : ∀ name, (Table.vec cold name).Nodup

theorem RecordsOk.path {env : EnclaveEnv} {times : Nat} {R : Records} (hok : RecordsOk env times R)
    {p : Path} {rs : List ChunkRecord} {r : ChunkRecord} (hp : R p = some rs) (hr : r ∈ rs) :
    pathOf r.entry = p := by
  have hname := (packedFrom_mem (hok.packed hp).packed hr).1
  have hkind := ((hok.packed hp).ok r hr).kind
  refine Prod.ext ?_ hname
  unfold pathOf
  rw [hkind]
  cases p.1 <;> rfl

theorem RecordsOk.dir_unique {env : EnclaveEnv} {times : Nat} {R : Records}
    (hok : RecordsOk env times R) {p : Path} {d : Bool} {rs rs' : List ChunkRecord}
    (hd : R (d, p.2) = some rs) (hp : R p = some rs') : (d, p.2) = p := by
  obtain ⟨d', name⟩ := p
  cases d <;> cases d'
  · rfl
  · rw [hok.oneDir hp] at hd
    simp at hd
  · rw [hok.oneDir hd] at hp
    simp at hp
  · rfl

section Indexed
variable {env : EnclaveEnv} {E : Fp → RecipeEntry → Prop}
  {cold : Table ContainerName (List (UInt32 × UInt32))} {times : Nat} {R : Records}

theorem Indexed.mono (h : Indexed E cold times R) {times' : Nat} (hle : times ≤ times') :
    Indexed E cold times' R :=
  ⟨h.unique, h.flag, h.short, fun he => (h.drawn he).mono hle, h.entry, h.live, h.dead,
    h.dead_nodup⟩

theorem Indexed.congr (h : Indexed E cold times R) {E' : Fp → RecipeEntry → Prop}
    (hE : ∀ fp e, E' fp e ↔ E fp e) : Indexed E' cold times R := by
  have heq : E' = E := by
    funext fp e
    exact propext (hE fp e)
  rw [heq]
  exact h

/-- Only the vectors of the cold map count. -/
theorem Indexed.cold_congr (h : Indexed E cold times R)
    {cold' : Table ContainerName (List (UInt32 × UInt32))}
    (hvec : ∀ name, Table.vec cold' name = Table.vec cold name) : Indexed E cold' times R := by
  refine ⟨h.unique, h.flag, h.short, h.drawn, h.entry, ?_, ?_, ?_⟩
  · intro p rs r hp hr hne
    rw [hvec]
    exact h.live hp hr hne
  · intro name ext hext
    rw [hvec] at hext
    exact h.dead hext
  · intro name
    rw [hvec]
    exact h.dead_nodup name

/-- A freshly drawn container has no records yet, and no entry leads to it. -/
theorem Indexed.draw (h : Indexed E cold times R) (hok : RecordsOk env times R)
    (htimes : times < 2 ^ 31) (d : Bool) :
    Indexed E cold (times + 1) (Function.update R (d, CreateUUID times) (some [])) := by
  refine ⟨h.unique, h.flag, h.short, fun he => (h.drawn he).mono (Nat.le_succ times), ?_, ?_, ?_,
    h.dead_nodup⟩
  · intro fp e rs he hrs
    have hne : pathOf e ≠ (d, CreateUUID times) := by
      intro heq
      have hdrawn := h.drawn he
      have hname : e.containerName = CreateUUID times := congrArg Prod.snd heq
      rw [hname] at hdrawn
      exact not_drawn_self htimes hdrawn
    rw [Function.update_of_ne hne] at hrs
    exact h.entry he hrs
  · intro p rs r hp hr hne
    by_cases hpe : p = (d, CreateUUID times)
    · subst hpe
      rw [Function.update_self, Option.some.injEq] at hp
      rw [← hp] at hr
      simp at hr
    · rw [Function.update_of_ne hpe] at hp
      exact h.live hp hr hne
  · intro name ext hext
    obtain ⟨d', rs, r, hrs, hr⟩ := h.dead hext
    refine ⟨d', rs, r, ?_, hr⟩
    have hne : (d', name) ≠ (d, CreateUUID times) := by
      intro heq
      rw [heq, hok.fresh htimes d] at hrs
      simp at hrs
    rw [Function.update_of_ne hne]
    exact hrs

/-- A container without cold extents disappears. -/
theorem Indexed.remove (h : Indexed E cold times R) {p : Path} (hcold : Table.vec cold p.2 = []) :
    Indexed E cold times (Function.update R p none) := by
  have hsome : ∀ {q rs}, Function.update R p none q = some rs → R q = some rs := by
    intro q rs hq
    by_cases hqp : q = p
    · subst hqp
      rw [Function.update_self] at hq
      simp at hq
    · rwa [Function.update_of_ne hqp] at hq
  refine ⟨h.unique, h.flag, h.short, h.drawn, fun he hrs => h.entry he (hsome hrs),
    fun hp hr hne => h.live (hsome hp) hr hne, ?_, h.dead_nodup⟩
  intro name ext hext
  obtain ⟨d, rs, r, hrs, hr⟩ := h.dead hext
  refine ⟨d, rs, r, ?_, hr⟩
  have hne : (d, name) ≠ p := by
    rintro rfl
    rw [hcold] at hext
    simp at hext
  rw [Function.update_of_ne hne]
  exact hrs

/-- What it takes for a record to be written behind the records of an open container. -/
structure Writable (R : Records) (rs : List ChunkRecord) (r : ChunkRecord) : Prop where
  here : R (pathOf r.entry) = some rs
  offset : r.entry.offset.toNat = (layout rs).length

/-- The entry of a record to be written is not the entry of a record that is there. -/
theorem Writable.fresh {rs : List ChunkRecord} {r : ChunkRecord} (hw : Writable R rs r)
    (hok : RecordsOk env times R) {p : Path} {rs' : List ChunkRecord} {r' : ChunkRecord}
    (hp : R p = some rs') (hr' : r' ∈ rs') : r'.entry ≠ r.entry := by
  intro heq
  have hend := (packedFrom_mem (hok.packed hp).packed hr').2.2.1
  have hpe : p = pathOf r.entry := by rw [← heq, hok.path hp hr']
  subst hpe
  rw [hw.here, Option.some.injEq] at hp
  subst hp
  have hoff := hw.offset
  have hpos := size_pos r'
  rw [← heq] at hoff
  omega

theorem Writable.sub {rs : List ChunkRecord} {r : ChunkRecord} (hw : Writable R rs r) {p : Path}
    {old : List ChunkRecord} (hp : R p = some old) :
    ∃ new, Function.update R (pathOf r.entry) (some (rs ++ [r])) p = some new ∧
      ∀ r' ∈ old, r' ∈ new := by
  by_cases hpe : p = pathOf r.entry
  · subst hpe
    rw [hw.here, Option.some.injEq] at hp
    subst hp
    rw [Function.update_self]
    exact ⟨_, rfl, fun r' hr' => List.mem_append_left _ hr'⟩
  · rw [Function.update_of_ne hpe]
    exact ⟨old, hp, fun _ hr' => hr'⟩

theorem Writable.cases {rs : List ChunkRecord} {r : ChunkRecord} (hw : Writable R rs r) {p : Path}
    {new : List ChunkRecord} {r' : ChunkRecord}
    (hp : Function.update R (pathOf r.entry) (some (rs ++ [r])) p = some new) (hr' : r' ∈ new) :
    (∃ old, R p = some old ∧ r' ∈ old) ∨ r' = r := by
  by_cases hpe : p = pathOf r.entry
  · subst hpe
    rw [Function.update_self, Option.some.injEq] at hp
    rw [← hp] at hr'
    rcases List.mem_append.mp hr' with hr' | hr'
    · exact Or.inl ⟨rs, hw.here, hr'⟩
    · exact Or.inr (List.mem_singleton.mp hr')
  · rw [Function.update_of_ne hpe] at hp
    exact Or.inl ⟨new, hp, hr'⟩

/-- An entry finds its record among more records. -/
theorem Writable.entry {rs : List ChunkRecord} {r : ChunkRecord} (hw : Writable R rs r)
    (h : Indexed E cold times R) {fp : Fp} {e : RecipeEntry} (he : E fp e)
    {new : List ChunkRecord}
    (hnew : Function.update R (pathOf r.entry) (some (rs ++ [r])) (pathOf e) = some new) :
    ∃ r' ∈ new, r'.fp = fp ∧ r'.entry = e := by
  cases hold : R (pathOf e) with
  | none =>
    have hne : pathOf e ≠ pathOf r.entry := by
      intro heq
      rw [heq, hw.here] at hold
      simp at hold
    rw [Function.update_of_ne hne, hold] at hnew
    simp at hnew
  | some old =>
    obtain ⟨r', hr', hr'e⟩ := h.entry he hold
    obtain ⟨new', hnew', hmem⟩ := hw.sub hold
    rw [hnew', Option.some.injEq] at hnew
    subst hnew
    exact ⟨r', hmem r' hr', hr'e⟩

/-- The first record of a chunk. -/
theorem Indexed.add (h : Indexed E cold times R) (hok : RecordsOk env times R)
    {rs : List ChunkRecord} {r : ChunkRecord} (hw : Writable R rs r) (hnew : ∀ e, ¬E r.fp e)
    (hflag : r.entry.deltaFlag = NO_DELTA ∨ r.entry.deltaFlag = DELTA)
    (hshort : r.entry.length.toNat ≤ MAX_CHUNK_SIZE) :
    Indexed (fun fp e => E fp e ∨ (fp = r.fp ∧ e = r.entry)) cold times
      (Function.update R (pathOf r.entry) (some (rs ++ [r]))) := by
  refine ⟨?_, ?_, ?_, ?_, ?_, ?_, ?_, h.dead_nodup⟩
  · rintro fp e e' (he | ⟨rfl, rfl⟩) (he' | ⟨hfp, rfl⟩)
    · exact h.unique he he'
    · rw [hfp] at he
      exact absurd he (hnew e)
    · exact absurd he' (hnew e')
    · rfl
  · rintro fp e (he | ⟨_, rfl⟩)
    · exact h.flag he
    · exact hflag
  · rintro fp e (he | ⟨_, rfl⟩)
    · exact h.short he
    · exact hshort
  · rintro fp e (he | ⟨_, rfl⟩)
    · exact h.drawn he
    · exact hok.drawn hw.here
  · rintro fp e new (he | ⟨rfl, rfl⟩) hnewrs
    · exact hw.entry h he hnewrs
    · rw [Function.update_self, Option.some.injEq] at hnewrs
      rw [← hnewrs]
      exact ⟨r, by simp, rfl, rfl⟩
  · intro q new r' hq hr' hne
    rcases hw.cases hq hr' with ⟨old, hold, hmem⟩ | rfl
    · exact h.live hold hmem (fun he => hne (Or.inl he))
    · exact absurd (Or.inr ⟨rfl, rfl⟩) hne
  · intro name ext hext
    obtain ⟨d, old, r', hold, hr', hexteq, hne⟩ := h.dead hext
    obtain ⟨new, hnewrs, hmem⟩ := hw.sub hold
    refine ⟨d, new, r', hnewrs, hmem r' hr', hexteq, ?_⟩
    rintro (he | ⟨_, heq⟩)
    · exact hne he
    · exact hw.fresh hok hold hr' heq

/-- A chunk gets a new record; the extent of its old one is handed to compaction. -/
theorem Indexed.supersede (h : Indexed E cold times R) (hok : RecordsOk env times R)
    {rs : List ChunkRecord} {r : ChunkRecord} (hw : Writable R rs r) {e : RecipeEntry}
    (he : E r.fp e) {old : List ChunkRecord} (hold : R (pathOf e) = some old)
    (hflag : r.entry.deltaFlag = NO_DELTA ∨ r.entry.deltaFlag = DELTA)
    (hshort : r.entry.length.toNat ≤ MAX_CHUNK_SIZE) :
    Indexed (fun fp e' => if fp = r.fp then e' = r.entry else E fp e')
      (Table.push cold e.containerName (coldExtent e)) times
      (Function.update R (pathOf r.entry) (some (rs ++ [r]))) := by
  obtain ⟨r₀, hr₀, hfp₀, hentry₀⟩ := h.entry he hold
  have hpos : ∀ {d : Bool} {rs' : List ChunkRecord} {r' : ChunkRecord},
      R (d, e.containerName) = some rs' → r' ∈ rs' → coldExtent r'.entry = coldExtent e →
      r' = r₀ := by
    intro d rs' r' hrs' hr' hext
    have hd : (d, e.containerName) = pathOf e := hok.dir_unique hrs' hold
    rw [hd, hold, Option.some.injEq] at hrs'
    subst hrs'
    apply packedFrom_offset_inj (hok.packed hold).packed hr' hr₀
    rw [hentry₀]
    exact congrArg Prod.fst hext
  have hnew : r.entry ≠ e := by
    intro heq
    exact hw.fresh hok hold hr₀ (by rw [hentry₀, heq])
  refine ⟨?_, ?_, ?_, ?_, ?_, ?_, ?_, ?_⟩
  · intro fp e₁ e₂ h₁ h₂
    by_cases hfp : fp = r.fp
    · rw [if_pos hfp] at h₁ h₂
      rw [h₁, h₂]
    · rw [if_neg hfp] at h₁ h₂
      exact h.unique h₁ h₂
  · intro fp e₁ h₁
    by_cases hfp : fp = r.fp
    · rw [if_pos hfp] at h₁
      rw [h₁]
      exact hflag
    · rw [if_neg hfp] at h₁
      exact h.flag h₁
  · intro fp e₁ h₁
    by_cases hfp : fp = r.fp
    · rw [if_pos hfp] at h₁
      rw [h₁]
      exact hshort
    · rw [if_neg hfp] at h₁
      exact h.short h₁
  · intro fp e₁ h₁
    by_cases hfp : fp = r.fp
    · rw [if_pos hfp] at h₁
      rw [h₁]
      exact hok.drawn hw.here
    · rw [if_neg hfp] at h₁
      exact h.drawn h₁
  · intro fp e₁ new h₁ hnewrs
    by_cases hfp : fp = r.fp
    · rw [if_pos hfp] at h₁
      subst h₁
      rw [Function.update_self, Option.some.injEq] at hnewrs
      rw [← hnewrs]
      exact ⟨r, by simp, hfp.symm, rfl⟩
    · rw [if_neg hfp] at h₁
      exact hw.entry h h₁ hnewrs
  · intro p new r' hp hr' hne
    rw [Table.vec_push]
    rcases hw.cases hp hr' with ⟨old', hold', hmem⟩ | rfl
    · by_cases hE : E r'.fp r'.entry
      · have hfp : r'.fp = r.fp := by
          by_contra hfp
          rw [if_neg hfp] at hne
          exact hne hE
        rw [hfp] at hE
        have hentry := h.unique hE he
        have hname := (packedFrom_mem (hok.packed hold').packed hmem).1
        rw [hentry] at hname ⊢
        rw [if_pos hname.symm]
        simp
      · have hlive := h.live hold' hmem hE
        by_cases hp : p.2 = e.containerName
        · rw [if_pos hp]
          rw [hp] at hlive
          exact List.mem_append_left _ hlive
        · rw [if_neg hp]
          exact hlive
    · rw [if_pos rfl] at hne
      exact absurd rfl hne
  · intro name ext hext
    rw [Table.vec_push] at hext
    have hcases : ext ∈ Table.vec cold name ∨ (name = e.containerName ∧ ext = coldExtent e) := by
      by_cases hn : name = e.containerName
      · rw [if_pos hn] at hext
        rcases List.mem_append.mp hext with hext | hext
        · left
          rw [hn]
          exact hext
        · exact Or.inr ⟨hn, List.mem_singleton.mp hext⟩
      · rw [if_neg hn] at hext
        exact Or.inl hext
    rcases hcases with hext | ⟨rfl, rfl⟩
    · obtain ⟨d, rs', r', hrs', hr', hexteq, hne⟩ := h.dead hext
      obtain ⟨new, hnewrs, hmem⟩ := hw.sub hrs'
      refine ⟨d, new, r', hnewrs, hmem r' hr', hexteq, ?_⟩
      intro hE
      by_cases hfp : r'.fp = r.fp
      · rw [if_pos hfp] at hE
        exact hw.fresh hok hrs' hr' hE
      · rw [if_neg hfp] at hE
        exact hne hE
    · obtain ⟨new, hnewrs, hmem⟩ := hw.sub hold
      refine ⟨(pathOf e).1, new, r₀, hnewrs, hmem r₀ hr₀, by rw [hentry₀], ?_⟩
      rw [if_pos hfp₀, hentry₀]
      exact fun heq => hnew heq.symm
  · intro name
    rw [Table.vec_push]
    by_cases hn : name = e.containerName
    · rw [if_pos hn, List.nodup_append]
      refine ⟨h.dead_nodup _, List.nodup_singleton _, ?_⟩
      intro ext hext ext' hext' heq
      rw [List.mem_singleton] at hext'
      obtain ⟨d, rs', r', hrs', hr', hexteq, hne⟩ := h.dead hext
      have hr'₀ := hpos hrs' hr' (by rw [← hexteq, heq, hext'])
      apply hne
      rw [hr'₀, hfp₀, hentry₀]
      exact he
    · rw [if_neg hn]
      exact h.dead_nodup name

end Indexed

end ShieldReduce.Prototype
