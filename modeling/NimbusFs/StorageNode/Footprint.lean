import NimbusFs.StorageNode.LocalDiskChunkStore

/-! # The paths a call touches

Each call of the store changes the entries at the paths it names, and nothing
else; only `create_directories` makes further entries, and they are directories
above the files. Nothing is assumed of the tree. -/
namespace NimbusFs.StorageNode

open NimbusFs.Common

/-- `d'` differs from `d` at the paths in `own`, and in new directories above
the files. -/
def Touches (own : Path → Prop) (d d' : Disk) : Prop :=
  ∀ p, own p ∨ d'.node p = d.node p ∨ (p.length ≤ 2 ∧ d.node p = none ∧ d'.node p = some .dir)

section Touches

variable {own own' : Path → Prop} {d d' d'' : Disk} {p q : Path}

theorem Touches.refl (own : Path → Prop) (d : Disk) : Touches own d d := fun _ => .inr (.inl rfl)

theorem Touches.mono (h : Touches own d d') (hown : ∀ p, own p → own' p) : Touches own' d d' :=
  fun p => (h p).imp_left (hown p)

theorem Touches.trans (h₁ : Touches own d d') (h₂ : Touches own d' d'') : Touches own d d'' := by
  intro p
  rcases h₁ p with hown | heq | ⟨hlen, hnone, hdir⟩
  · exact .inl hown
  · rw [← heq]
    exact h₂ p
  · rcases h₂ p with hown | heq | ⟨_, hnone', _⟩
    · exact .inl hown
    · exact .inr (.inr ⟨hlen, hnone, heq.trans hdir⟩)
    · rw [hdir] at hnone'
      cases hnone'

/-- What is not touched keeps its file, if it has one. -/
theorem Touches.contents (h : Touches own d d') (hp : ¬ own p) : d'.contents p = d.contents p := by
  rcases h p with hown | heq | ⟨_, hnone, hdir⟩
  · exact absurd hown hp
  · rw [Disk.contents, Disk.contents, heq]
  · rw [Disk.contents, Disk.contents, hnone, hdir]

/-- What lies as deep as the files keeps its entry. -/
theorem Touches.node (h : Touches own d d') (hp : ¬ own p) (hlen : 2 < p.length) :
    d'.node p = d.node p := by
  rcases h p with hown | heq | ⟨hle, _⟩
  · exact absurd hown hp
  · exact heq
  · omega

theorem touches_setNode (q : Path) (n : Node) : Touches (· = q) d (d.setNode q n) := by
  intro p
  by_cases hp : p = q
  · exact .inl hp
  · exact .inr (.inl (by rw [Disk.node_setNode, if_neg hp]))

theorem touches_addEntry (q : Path) (n : Node) : Touches (· = q) d (d.addEntry q n) := by
  intro p
  by_cases hp : p = q
  · exact .inl hp
  · exact .inr (.inl (by rw [Disk.node_addEntry, if_neg hp]))

theorem touches_removeEntry (q : Path) : Touches (· = q) d (d.removeEntry q) := by
  intro p
  by_cases hp : p = q
  · exact .inl hp
  · exact .inr (.inl (by rw [Disk.node_removeEntry, if_neg hp]))

theorem touches_mkdirs {ps : List Path} (hps : ∀ p ∈ ps, p.length ≤ 2) :
    Touches own d (d.mkdirs ps) := by
  intro p
  rw [Disk.node_mkdirs]
  by_cases h : p ∈ ps ∧ d.node p = none
  · exact .inr (.inr ⟨hps p h.1, h.2, if_pos h⟩)
  · exact .inr (.inl (if_neg h))

theorem touches_createDirectories (hq : q.length ≤ 2) (oc : Outcome) :
    Touches own d (d.createDirectories q oc).2 := by
  have hlen : ∀ p ∈ q.inits, p.length ≤ 2 :=
    fun p hp => ((List.mem_inits p q).mp hp).length_le.trans hq
  cases oc with
  | ok =>
    simp only [Disk.createDirectories]
    split
    · exact .refl _ _
    · exact touches_mkdirs hlen
  | fail m => exact .refl _ _
  | short m n =>
    simp only [Disk.createDirectories]
    split
    · exact .refl _ _
    · exact touches_mkdirs fun p hp => hlen p (List.mem_of_mem_take hp)

theorem touches_internalOpen (q : Path) (mode : Disk.OpenMode) (oc : Outcome) :
    Touches (· = q) d (d.internalOpen q mode oc).2 := by
  unfold Disk.internalOpen
  split
  · split
    · exact touches_setNode q _
    · exact .refl _ _
    · split
      · exact touches_addEntry q _
      · exact .refl _ _
  · exact .refl _ _
  · exact .refl _ _
  · exact .refl _ _

theorem touches_write (q : Path) (data : Bytes) (oc : Outcome) :
    Touches (· = q) d (d.write q data oc).2 := by
  have happend : ∀ done, Touches (· = q) d (Disk.write.append d q done) := by
    intro done
    unfold Disk.write.append
    split
    · exact touches_setNode q _
    · exact .refl _ _
  cases oc with
  | ok => exact happend data
  | fail m => exact .refl _ _
  | short m n => exact happend (data.take n)

theorem touches_internalFsync (q : Path) (oc : Outcome) :
    Touches (· = q) d (d.internalFsync q oc).2 := by
  unfold Disk.internalFsync
  split
  · split
    · exact touches_setNode q _
    · exact fun p => .inr (.inl rfl)
    · exact .refl _ _
  · exact .refl _ _
  · exact .refl _ _

theorem touches_rename (src dst : Path) (oc : Outcome) :
    Touches (fun p => p = src ∨ p = dst) d (d.rename src dst oc).2 := by
  unfold Disk.rename
  split
  · split
    · split
      · exact .refl _ _
      · split
        · exact .refl _ _
        · exact ((touches_removeEntry src).mono fun _ => .inl).trans
            (((touches_removeEntry dst).trans (touches_addEntry dst _)).mono fun _ => .inr)
    · exact .refl _ _
    · exact .refl _ _
  · exact .refl _ _
  · exact .refl _ _

theorem touches_remove (q : Path) (oc : Outcome) : Touches (· = q) d (d.remove q oc).2 := by
  unfold Disk.remove
  split
  · split
    · exact .refl _ _
    · exact touches_removeEntry q
    · split
      · exact .refl _ _
      · exact touches_removeEntry q
  · exact .refl _ _
  · exact .refl _ _

end Touches

/-! ## Trees

Every entry but the root lies in a directory. -/

/-- The directory of every entry is there. -/
def Disk.IsTree (d : Disk) : Prop := ∀ p, p ≠ [] → d.node p ≠ none → d.node p.dropLast = some .dir

section Trees

variable {d : Disk} {p q : Path}

/-- What lies above an entry is a directory. -/
theorem Disk.IsTree.above (h : d.IsTree) (hp : d.node p ≠ none) (hq : q <+: p) (hne : q ≠ p) :
    d.node q = some .dir := by
  obtain ⟨rest, rfl⟩ := hq
  induction rest using List.reverseRecOn with
  | nil => exact absurd (List.append_nil q).symm hne
  | append_singleton rest name ih =>
    have hdir : d.node (q ++ rest) = some .dir := by
      have := h (q ++ (rest ++ [name])) (by simp) hp
      rwa [← List.append_assoc, List.dropLast_concat] at this
    by_cases hrest : rest = []
    · rwa [hrest, List.append_nil] at hdir
    · exact ih (by simp [hdir]) (by simpa using hrest)

theorem dropLast_ne (hp : p ≠ []) : p.dropLast ≠ p := by
  intro h
  have := congrArg List.length h
  rw [List.length_dropLast] at this
  have := List.length_pos_iff.mpr hp
  omega

/-- A file may be put where there is no directory, in a directory. -/
theorem isTree_of_file {d' : Disk} {b : Bytes} {dirty : Bool} (h : d.IsTree)
    (hq : d.node q ≠ some .dir) (hparent : q ≠ [] → d.node q.dropLast = some .dir)
    (hnode : ∀ p, d'.node p = if p = q then some (.file b dirty) else d.node p) : d'.IsTree := by
  intro p hp hsome
  by_cases hpq : p = q
  · subst hpq
    rw [hnode, if_neg (dropLast_ne hp)]
    exact hparent hp
  · rw [hnode, if_neg hpq] at hsome
    have hdir := h p hp hsome
    have hne : p.dropLast ≠ q := fun heq => hq (heq ▸ hdir)
    rw [hnode, if_neg hne, hdir]

/-- Where a file is, its parent is. -/
theorem Disk.IsTree.setFile (h : d.IsTree) {b b' : Bytes} {dirty dirty' : Bool}
    (hq : d.node q = some (.file b dirty)) : (d.setNode q (.file b' dirty')).IsTree :=
  isTree_of_file h (by simp [hq]) (fun hne => h q hne (by simp [hq]))
    fun p => Disk.node_setNode d q p _

theorem Disk.IsTree.addFile (h : d.IsTree) {b : Bytes} {dirty : Bool} (hq : d.node q ≠ some .dir)
    (hparent : d.node q.dropLast = some .dir) : (d.addEntry q (.file b dirty)).IsTree :=
  isTree_of_file h hq (fun _ => hparent) fun p => Disk.node_addEntry d q p _

/-- An entry with nothing in it may go. -/
theorem Disk.IsTree.removeEntry (h : d.IsTree)
    (hempty : ∀ p, p ≠ [] → d.node p ≠ none → p.dropLast ≠ q) : (d.removeEntry q).IsTree := by
  intro p hp hsome
  rw [Disk.node_removeEntry] at hsome
  split at hsome
  · exact absurd rfl hsome
  · rw [Disk.node_removeEntry, if_neg (hempty p hp hsome)]
    exact h p hp hsome

/-- Only a directory has entries in it. -/
theorem Disk.IsTree.no_children (h : d.IsTree) (hq : d.node q ≠ some .dir) :
    ∀ p, p ≠ [] → d.node p ≠ none → p.dropLast ≠ q :=
  fun p hp hsome heq => hq (heq ▸ h p hp hsome)

theorem Disk.IsTree.mkdirs (h : d.IsTree) {ps : List Path}
    (hclosed : ∀ p ∈ ps, p ≠ [] → p.dropLast ∈ ps) (hfile : ∀ p ∈ ps, d.isFile p = false) :
    (d.mkdirs ps).IsTree := by
  have hdir : ∀ q ∈ ps, (d.mkdirs ps).node q = some .dir := by
    intro q hq
    have := hfile q hq
    rw [Disk.node_mkdirs]
    cases hn : d.node q with
    | none => simp [hq]
    | some n =>
      cases n with
      | dir => simp
      | file b dirty => simp [Disk.isFile, hn] at this
  intro p hp hsome
  by_cases hmem : p ∈ ps
  · exact hdir _ (hclosed p hmem hp)
  · rw [Disk.node_mkdirs, if_neg (fun hn => hmem hn.1)] at hsome
    have hparent := h p hp hsome
    rw [Disk.node_mkdirs, if_neg (by simp [hparent]), hparent]

/-- The first parts of a path are closed under going up. -/
theorem dropLast_mem_take_inits {n : Nat} (hp : p ∈ q.inits.take n) :
    p.dropLast ∈ q.inits.take n := by
  obtain ⟨i, hi, rfl⟩ := List.mem_take_iff_getElem.mp hp
  refine List.mem_take_iff_getElem.mpr ⟨i - 1, by omega, ?_⟩
  have hlen : i ≤ q.length := by
    have := List.length_inits q
    omega
  rw [List.getElem_inits, List.getElem_inits, List.dropLast_eq_take, List.take_take,
    List.length_take, Nat.min_eq_left hlen]
  congr 1
  omega

theorem Disk.IsTree.createDirectories (h : d.IsTree) (q : Path) (oc : Outcome) :
    (d.createDirectories q oc).2.IsTree := by
  have hmk : q.inits.any d.isFile = false → ∀ n, (d.mkdirs (q.inits.take n)).IsTree := by
    intro hany n
    refine h.mkdirs (fun p hp _ => dropLast_mem_take_inits hp) fun p hp => ?_
    exact Bool.eq_false_iff.mpr (List.any_eq_false.mp hany p (List.mem_of_mem_take hp))
  cases oc with
  | ok =>
    simp only [Disk.createDirectories]
    split
    · exact h
    · rename_i hany
      have := hmk (Bool.eq_false_iff.mpr hany) q.inits.length
      rwa [List.take_length] at this
  | fail m => exact h
  | short m n =>
    simp only [Disk.createDirectories]
    split
    · exact h
    · rename_i hany
      exact hmk (Bool.eq_false_iff.mpr hany) n

theorem Disk.IsTree.internalOpen (h : d.IsTree) (q : Path) (mode : Disk.OpenMode) (oc : Outcome) :
    (d.internalOpen q mode oc).2.IsTree := by
  unfold Disk.internalOpen
  split
  · split
    · rename_i hn
      exact h.setFile hn
    · exact h
    · rename_i hn
      split
      · rename_i hparent
        exact h.addFile (by simp [hn]) hparent
      · exact h
  · exact h
  · exact h
  · exact h

theorem Disk.IsTree.write (h : d.IsTree) (q : Path) (data : Bytes) (oc : Outcome) :
    (d.write q data oc).2.IsTree := by
  have happend : ∀ done, (Disk.write.append d q done).IsTree := by
    intro done
    unfold Disk.write.append
    split
    · rename_i hn
      exact h.setFile hn
    · exact h
  cases oc with
  | ok => exact happend data
  | fail m => exact h
  | short m n => exact happend (data.take n)

theorem Disk.IsTree.internalFsync (h : d.IsTree) (q : Path) (oc : Outcome) :
    (d.internalFsync q oc).2.IsTree := by
  unfold Disk.internalFsync
  split
  · split
    · rename_i hn
      exact h.setFile hn
    · exact h
    · exact h
  · exact h
  · exact h

theorem Disk.IsTree.rename (h : d.IsTree) (src dst : Path) (oc : Outcome) :
    (d.rename src dst oc).2.IsTree := by
  unfold Disk.rename
  split
  · split
    · rename_i b dirty hsrc
      split
      · exact h
      · rename_i hdst
        split
        · exact h
        · rename_i hparent
          have hparent : d.node dst.dropLast = some .dir := not_not.mp hparent
          have h₁ : (d.removeEntry src).IsTree := h.removeEntry (h.no_children (by simp [hsrc]))
          have hdst₁ : (d.removeEntry src).node dst ≠ some .dir := by
            rw [Disk.node_removeEntry]
            split
            · simp
            · exact hdst
          have h₂ := h₁.removeEntry (h₁.no_children hdst₁)
          refine h₂.addFile (by simp) ?_
          have hsrc' : dst.dropLast ≠ src := fun heq => by
            rw [heq, hsrc] at hparent
            cases hparent
          have hdst' : dst.dropLast ≠ dst := fun heq => hdst (heq ▸ hparent)
          rw [Disk.node_removeEntry, if_neg hdst', Disk.node_removeEntry, if_neg hsrc', hparent]
    · exact h
    · exact h
  · exact h
  · exact h

theorem Disk.IsTree.remove (h : d.IsTree) (q : Path) (oc : Outcome) : (d.remove q oc).2.IsTree := by
  unfold Disk.remove
  split
  · split
    · exact h
    · rename_i hn
      exact h.removeEntry (h.no_children (by simp [hn]))
    · split
      · exact h
      · rename_i hempty
        refine h.removeEntry fun p hp hsome heq => hempty ?_
        have hmem : p ∈ d.tree.keys := by
          by_contra hnot
          exact hsome (AList.lookup_eq_none.mpr hnot)
        exact List.any_eq_true.mpr ⟨p, hmem, by simp [hp, heq]⟩
  · exact h
  · exact h

/-- **Every call keeps the tree a tree.** -/
theorem Call.exec_isTree (c : Call) (oc : Outcome) {s : Store} (h : s.disk.IsTree) :
    (c.exec oc s).2.disk.IsTree := by
  cases c with
  | createDirectories p => exact h.createDirectories p oc
  | internalOpen p mode => exact h.internalOpen p mode oc
  | write fd data => exact h.write fd data oc
  | internalFsync fd => exact h.internalFsync fd oc
  | rename src dst => exact h.rename src dst oc
  | remove p => exact h.remove p oc
  | existsPath p => exact h
  | close fd => exact h
  | fileSize p => exact h
  | read fd count => exact h
  | listRecursive => exact h
  | space => exact h
  | fetchAdd c n => exact h
  | fetchSub c n => exact h
  | load c => exact h
  | store c n => exact h

theorem Disk.IsEmpty.isTree (h : d.IsEmpty) : d.IsTree := by
  intro p hp hsome
  obtain ⟨n, hn⟩ := Option.ne_none_iff_exists'.mp hsome
  exact absurd (h.node p n hn).1 hp

end Trees

end NimbusFs.StorageNode
