import Xv6Cos.Verif.DiskCalls

/-!
# Sequences of file system calls

Between any two calls the disk is intact, and the files and current directories of the processes
have references to their inodes.
-/

namespace Xv6Cos.Verif

open Kernel Spec Bytes Program Transition Function List Disk Prod DiskSystem Nat

variable {sb : Superblock} {img : ℕ → Block} {sys : DiskSystem} {s₀ s t : Disk} {b : ℕ}
  {held : List ℕ} {c : ℕ} {files : List (ℕ × Bool)} {cwds : List ℕ}

section Calls

/-- What `open` returns. -/
def Opened (sb : Superblock) (result : Option (ℕ × Bool)) (t : Disk) : Prop :=
  ∀ file, result = some file → (node sb t file.1).type ≠ 0 ∧
    (file.2 = true → (node sb t file.1).type ≠ T_DIR)

theorem node_of_same {u : Disk} (same : t.image = u.image) (icache : t.icache = u.icache) (i : ℕ) :
    node sb u i = node sb t i :=
  node_congr (by rw [icache]) (by rw [dinode, dinode, same])

variable (session : Session sb s₀ held [] s) {cwd : ℕ} (referenced : 0 < (s.icache cwd).ref)

include session referenced

theorem sysOpen_session (path : Path) (omode : BitVec 32) (room : Bool) :
    Keeps (sysOpen sb cwd path omode room) s fun result t =>
      Session sb s₀ (result.toList.map fst ++ held) [] t ∧ Opened sb result t := by
  refine transaction_session (fun result => result.toList.map fst ++ held) (Opened sb) session
    (fun result t u same icache opened file some => ?_) fun s₁ running same start => ?_
  · rw [node_of_same same icache]
    exact opened file some
  · refine (openInode_session running start referenced path omode).bind ?_
    rintro (_ | ip) t found
    · exact .pure ⟨found, nofun⟩
    · refine (openFile_session running found.1 omode found.2 room).mono ?_
      rintro (_ | file) u done
      · exact ⟨done, nofun⟩
      · exact ⟨done.1, fun _ same => Option.some.inj same ▸ done.2⟩

theorem sysMake_session (path : Path) (type major minor : BitVec 16) :
    Keeps (sysMake sb cwd path type major minor) s fun _ t => Session sb s₀ held [] t := by
  refine transaction_plain session fun s₁ running same start => ?_
  refine (create_session running start referenced path type major minor).bind ?_
  rintro (_ | ip) t made
  · exact .pure made
  · exact iunlockput_session made.1 running

theorem sysLink_session (old new : Path) (other : 0 < (s₀.icache cwd).ref) :
    Keeps (sysLink sb cwd old new) s fun _ t => Session sb s₀ held [] t := by
  refine transaction_plain session fun s₁ running same start => ?_
  refine (namei_session start running referenced old).bind ?_
  rintro (_ | ip) t found
  · exact .pure found
  · refine (ilock_session found ip).bind ?_
    rintro - t ⟨locked, -⟩
    have mem : ip ∈ [ip] := mem_cons_self ..
    refine .bind_reads ?_
    by_cases directory : (t.icache ip).copy.type = T_DIR
    · rw [if_pos directory]
      exact iunlockput_session locked running
    · rw [if_neg directory]
      refine (setNlink_session running locked mem _).bind ?_
      rintro - t counted
      refine (iunlock_session counted).bind ?_
      rintro - u ⟨unlocked, -⟩
      refine linkTo_session running unlocked (counted.known mem).1 ?_ new
      rw [unlocked.refs cwd, same]
      omega

theorem sysUnlink_session (path : Path) :
    Keeps (sysUnlink sb cwd path) s fun _ t => Session sb s₀ held [] t := by
  refine transaction_plain session fun s₁ running same start => ?_
  refine (namex_session start running referenced path true).bind ?_
  rintro (_ | ⟨dp, name⟩) t found
  · exact .pure found
  · refine (ilock_session found dp).bind ?_
    rintro - t ⟨locked, -⟩
    exact unlinkIn_session running locked name

omit referenced in
/-- `chdir`, which has the reference to the current directory. -/
theorem sysChdir_session (own : held = [cwd]) (path : Path) :
    Keeps (sysChdir sb cwd path) s fun result t => Session sb s₀ [result] [] t := by
  subst own
  refine (transaction_session (fun result => [result]) (fun _ _ => True) session
    (fun _ _ _ _ _ _ => True.intro) fun s₁ running same start => ?_).mono fun _ _ done => done.1
  have referenced : 0 < ((begun s).icache cwd).ref := by
    rw [start.refs cwd, count_singleton_self]
    omega
  refine (namei_session start running referenced path).bind ?_
  rintro (_ | ip) t found
  · exact .pure ⟨found, True.intro⟩
  · refine (ilock_session found ip).bind ?_
    rintro - t ⟨locked, -⟩
    refine .bind_reads ?_
    by_cases directory : (t.icache ip).copy.type ≠ T_DIR
    · rw [if_pos directory]
      refine (iunlockput_session locked running).bind ?_
      rintro - t dropped
      exact .pure ⟨dropped, True.intro⟩
    · rw [if_neg directory]
      refine (iunlock_session locked).bind ?_
      rintro - u ⟨unlocked, -⟩
      have swapped := unlocked.perm (List.Perm.swap cwd ip []) (List.Perm.refl _)
      refine (iput_session swapped running (by simp)).bind ?_
      rintro - v dropped
      exact .pure ⟨dropped, True.intro⟩

end Calls

section Files

variable (session : Session sb s₀ held [] s) {i : ℕ}

include session

theorem fileWrite_session (file : (node sb s i).type ≠ T_DIR) (src : ℕ → Option UInt8) (off : ℕ)
    (n : BitVec 32) :
    Keeps (fileWrite sb i src off n.toNat) s fun _ t => Session sb s₀ held [] t := by
  refine transaction_plain session fun s₁ running same start => ?_
  refine (ilock_session start i).bind ?_
  rintro - t ⟨locked, entry⟩
  have mem : i ∈ [i] := mem_cons_self ..
  refine (writei_session locked mem running n.isLt fun directory => ?_).bind ?_
  · rw [entry, update_self] at directory
    exact absurd directory file
  · rintro r u ⟨wrote, -, -⟩
    refine (iunlock_session wrote).bind ?_
    rintro - v ⟨unlocked, -⟩
    exact .pure unlocked

theorem fileRead_session (dst : ℕ → Bool) (off : ℕ) (n : BitVec 32) :
    Keeps (fileRead sb i dst off n.toNat) s fun _ t => Session sb s₀ held [] t := by
  refine (ilock_session session i).bind ?_
  rintro - t ⟨locked, -⟩
  obtain ⟨r, ran⟩ := readi_session locked (mem_cons_self ..) dst off n.isLt
  refine .bind_ok ran ((iunlock_session locked).bind ?_)
  rintro - u ⟨unlocked, -⟩
  exact .pure unlocked

/-- The `iput` of `fileclose` and `exit`. -/
theorem drop_session (own : held = [i]) :
    Keeps (drop sb i) s fun _ t => Session sb s₀ [] [] t := by
  subst own
  refine transaction_plain session fun s₁ running same start => ?_
  exact iput_session start running (by simp)

omit session in
/-- A buffer of the cache is taken for another block. -/
theorem evict_intact (intact : Intact sb s) (b : ℕ) : Intact sb (s.setData b (s.buf b).home) := by
  let t := s.setData b (s.buf b).home
  by_cases clean : (s.buf b).home = s.image b
  · have buf : t.buf = s.buf := by
      change update s.buf b ⟨(s.buf b).home, if _ then (s.buf b).home else _, _⟩ = s.buf
      rw [update_eq_self_iff, ite_self, clean]
      exact congrArg (DiskBuf.mk (s.image b) · _) clean.symm
    exact intact_congr intact buf rfl
  · -- A block that has not been logged is one of the data of a file, or free.
    have plain : DataBlock sb s b := by
      refine ⟨Nat.le_of_not_lt fun low => clean (intact.ok.logged b (.inl low)), fun j there => ?_⟩
      exact clean (intact.ok.logged b (.inr ⟨j, there⟩))
    have rest : ∀ b', b' ≠ b → t.buf b' = s.buf b' := fun b' other => update_of_ne other _ _
    have node : ∀ j, j < sb.ninodes → node sb t j = Spec.node sb s j := fun j known =>
      data_node intact.ok plain rfl rest known
    have addr : ∀ j p, j < sb.ninodes → (Spec.node sb s j).type ≠ 0 →
        addrOf t.image (Spec.node sb s j) p = addrOf s.image (Spec.node sb s j) p :=
      fun j p known typed => data_addr plain rest known typed p
    obtain ⟨i, owner⟩ : ∃ i, ∀ j p, References sb s (j, p) b → j = i := by
      by_cases some : ∃ j p, References sb s (j, p) b
      · obtain ⟨i, p, there⟩ := some
        exact ⟨i, fun j q there' => congrArg fst (intact.ok.owned.once _ _ _ there' there)⟩
      · exact ⟨0, fun j p there => absurd ⟨j, p, there⟩ some⟩
    have others : Others sb i s t := by
      refine ⟨fun j known _ => node j known, fun j p known typed _ => addr j p known typed,
        fun j p b' there other _ => rest b' ?_⟩
      rintro rfl
      exact other (owner j p there)
    -- The owner is no directory, whose blocks have all been logged.
    have unowned : i < sb.ninodes → (Spec.node sb s i).type = T_DIR →
        ∀ p b', References sb s (i, p) b' → b' ≠ b := by
      rintro known directory p b' there rfl
      exact clean (intact.settled i known directory p b' there)
    refine intact_change intact others (data_ok intact.ok plain rfl rest) (fun j => ?_) intact.locks
      (fun known typed => ?_) (fun known directory k inside => ?_) (fun known directory => ?_)
    · intro referenced valid
      rw [data_dinode intact.ok plain rest (intact.ok.entries j referenced).1]
      exact intact.written j referenced valid
    · rw [node i known] at typed ⊢
      intro bn below
      have there := intact.whole i known typed bn below
      obtain ⟨p, place, here⟩ := placeOf_of_block there
      rw [blockOf_of_place place, addr i p known typed, ← here]
      exact there
    · rw [node i known] at directory inside ⊢
      have typed : (Spec.node sb s i).type ≠ 0 := by
        rw [directory]
        decide
      rw [inum_congr (k := k) fun a _ below => ?_]
      · exact intact.names i known directory k inside
      · have there := block_of_byte (intact.whole i known typed) (k := a) (by omega)
        obtain ⟨p, place, here⟩ := placeOf_of_block there
        have refers : References sb s (i, p) (blockOf s.image (Spec.node sb s i) (a / BSIZE)) :=
          ⟨known, typed, here.symm, there⟩
        have same : blockOf t.image (Spec.node sb s i) (a / BSIZE) =
            blockOf s.image (Spec.node sb s i) (a / BSIZE) := by
          rw [blockOf_of_place place, addr i p known typed, here]
        rw [byteOf, same, image, rest _ (unowned known directory p _ refers), byteOf, image]
    · rw [node i known] at directory
      intro p b' there
      have old := (data_refers (t := t) intact.ok plain rfl rest _ _).mp there
      rw [image, rest b' (unowned known directory p b' old)]
      exact intact.settled i known directory p b' old

end Files

section Run

/-- What holds between the calls. -/
structure SystemOk (sb : Superblock) (sys : DiskSystem) : Prop where
  intact : Intact sb sys.disk
  idle : sys.disk.outstanding = 0
  unlocked : ∀ j, (sys.disk.icache j).locked = false
  /-- Files and current directories have references. -/
  refs : ∀ j, (sys.files.map Prod.fst ++ sys.cwds).count j ≤ (sys.disk.icache j).ref
  /-- Nobody can write to a directory. -/
  files : ∀ file ∈ sys.files, (node sb sys.disk file.1).type ≠ 0 ∧
    (file.2 = true → (node sb sys.disk file.1).type ≠ T_DIR)

namespace SystemOk

variable (ok : SystemOk sb sys)

include ok

theorem start : Session sb sys.disk [] [] sys.disk where
  intact := ok.intact
  outstanding := rfl
  refs j := by rw [count_nil, add_zero]
  types _ _ _ := rfl
  locks j := by simp [ok.unlocked j]
  nodup := nodup_nil

theorem referenced {cwd : ℕ} (mem : cwd ∈ sys.cwds) : 0 < (sys.disk.icache cwd).ref := by
  have some := count_pos_iff.mpr (mem_append_right (sys.files.map fst) mem)
  exact lt_of_lt_of_le some (ok.refs cwd)

/-- The state without one reference, which a call has. -/
def lent (s : Disk) (c : ℕ) : Disk := s.setCopy c { s.icache c with ref := (s.icache c).ref - 1 }

omit ok in
theorem lent_ref (s : Disk) (c j : ℕ) :
    ((lent s c).icache j).ref = (s.icache j).ref - if j = c then 1 else 0 := by
  change (update s.icache c _ j).ref = _
  by_cases here : j = c
  · rw [if_pos here, here, update_self]
  · rw [if_neg here, update_of_ne here]
    rfl

omit ok in
theorem lent_node {j : ℕ} (referenced : 0 < ((lent s c).icache j).ref) :
    node sb (lent s c) j = node sb s j := by
  by_cases here : j = c
  · have entry : (lent s c).icache j = { s.icache j with ref := (s.icache j).ref - 1 } := by
      rw [here]
      exact update_self c _ _
    have more : 0 < (s.icache j).ref := by
      rw [lent_ref] at referenced
      omega
    by_cases valid : (s.icache j).valid = true
    · rw [node_live (s := lent s c) ⟨referenced, by rw [entry]; exact valid⟩,
        node_live ⟨more, valid⟩,
        entry]
    · unfold node
      rw [entry, if_neg fun live => valid live.2, if_neg fun live => valid live.2]
      rfl
  · exact node_congr (update_of_ne here _ _) rfl

/-- A call that gives up a reference of the process. -/
theorem lend (referenced : 0 < (sys.disk.icache c).ref) :
    Session sb (lent sys.disk c) [c] [] sys.disk where
  intact := ok.intact
  outstanding := rfl
  refs j := by
    rw [lent_ref]
    by_cases here : j = c
    · rw [if_pos here, here, count_singleton_self]
      omega
    · rw [if_neg here, count_cons_of_ne fun same => here same.symm, count_nil]
      rfl
  types j referenced _ := by rw [lent_node referenced]
  locks j := by simp [ok.unlocked j]
  nodup := nodup_nil

/-- The call has ended. The files that stay had references other than those of the call. -/
theorem finish {s₀ t : Disk} (session : Session sb s₀ held [] t) (idle : s₀.outstanding = 0)
    (same : ∀ j, 0 < (s₀.icache j).ref → node sb s₀ j = node sb sys.disk j)
    (refs : ∀ j, (files.map fst ++ cwds).count j ≤ (s₀.icache j).ref + held.count j)
    (kept : ∀ file ∈ files, file ∈ sys.files ∧ 0 < (s₀.icache file.1).ref ∨
      (node sb t file.1).type ≠ 0 ∧ (file.2 = true → (node sb t file.1).type ≠ T_DIR)) :
    SystemOk sb ⟨t, files, cwds⟩ where
  intact := session.intact
  idle := session.outstanding.trans idle
  unlocked j := by simpa using session.locks j
  refs j := by
    rw [session.refs j]
    exact refs j
  files file mem := by
    rcases kept file mem with ⟨old, referenced⟩ | new
    · have typed := ok.files file old
      rw [← same file.1 referenced] at typed
      have type := session.types file.1 referenced typed.1
      change (node sb t file.1).type ≠ 0 ∧ (file.2 = true → (node sb t file.1).type ≠ T_DIR)
      rw [type]
      exact typed
    · exact new

theorem file_referenced {file : ℕ × Bool} (mem : file ∈ sys.files) :
    0 < (sys.disk.icache file.1).ref := by
  have some := count_pos_iff.mpr
    (mem_append_left sys.cwds (mem_map_of_mem (f := fst) mem))
  exact lt_of_lt_of_le some (ok.refs file.1)

/-- The call has ended, and the process has the same files and one list of directories more. -/
theorem finish_same {t : Disk} (session : Session sb sys.disk held [] t) :
    SystemOk sb ⟨t, sys.files, held ++ sys.cwds⟩ := by
  refine ok.finish session ok.idle (fun _ _ => rfl) (fun j => ?_) fun file mem =>
    .inl ⟨mem, ok.file_referenced mem⟩
  have bound := ok.refs j
  simp only [count_append] at bound ⊢
  omega

/-- A call that gives up the reference of a file or of a current directory. -/
theorem finish_lent {t : Disk}
    (session : Session sb (lent sys.disk c) held [] t) (sub : ∀ file ∈ files, file ∈ sys.files)
    (moved : ∀ j, (files.map fst ++ cwds).count j + [c].count j =
      (sys.files.map fst ++ sys.cwds).count j + held.count j)
    (stay : ∀ j, (files.map fst).count j + [c].count j ≤
      (sys.files.map fst ++ sys.cwds).count j) :
    SystemOk sb ⟨t, files, cwds⟩ := by
  have single : ∀ j, [c].count j = if j = c then 1 else 0 := by
    intro j
    by_cases here : j = c
    · rw [if_pos here, here, count_singleton_self]
    · rw [if_neg here, count_cons_of_ne fun same => here same.symm, count_nil]
  refine ok.finish session ok.idle (fun j => lent_node) (fun j => ?_) fun file mem =>
    .inl ⟨sub file mem, ?_⟩
  · have bound := ok.refs j
    have moved := moved j
    rw [single j] at moved
    rw [lent_ref]
    omega
  · have some := count_pos_iff.mpr (mem_map_of_mem (f := fst) mem)
    have bound := ok.refs file.1
    have stay := stay file.1
    rw [single file.1] at stay
    rw [lent_ref]
    omega

theorem perform_keeps {action : DiskAction} (possible : sys.possible action) :
    Keeps (sys.perform sb action) sys.disk fun result t =>
      SystemOk sb ⟨t, result.1, result.2⟩ := by
  have erased : ∀ {c : ℕ} (j : ℕ), c ∈ sys.cwds →
      (sys.cwds.erase c).count j + [c].count j = sys.cwds.count j := by
    intro c j mem
    have whole := (perm_cons_erase mem).count_eq j
    simp only [count_cons, count_nil] at whole ⊢
    omega
  cases action with
  | userinit =>
    refine (iget_session ok.start ok.intact.root).bind ?_
    rintro - t ⟨got, -⟩
    exact .pure (ok.finish_same got)
  | fork cwd =>
    refine (idup_session ok.start (ok.referenced possible)).bind ?_
    rintro - t got
    exact .pure (ok.finish_same got)
  | exit cwd =>
    refine (drop_session (ok.lend (ok.referenced possible)) rfl).bind ?_
    rintro - t dropped
    refine .pure (ok.finish_lent dropped (fun _ mem => mem) (fun j => ?_) fun j => ?_)
    · have count := erased j possible
      simp only [count_append, count_nil] at count ⊢
      omega
    · have count := erased j possible
      simp only [count_append] at count ⊢
      omega
  | openPath cwd path omode room =>
    refine (sysOpen_session ok.start (ok.referenced possible) path omode room).bind ?_
    rintro result t ⟨done, opened⟩
    refine .pure (ok.finish done ok.idle (fun _ _ => rfl) (fun j => ?_) fun file mem => ?_)
    · have bound := ok.refs j
      simp only [map_append, count_append, append_nil] at bound ⊢
      omega
    · rcases mem_append.mp mem with new | old
      · exact .inr (opened file (Option.mem_toList.mp new))
      · exact .inl ⟨old, ok.file_referenced old⟩
  | mkdir cwd path =>
    refine (sysMake_session ok.start (ok.referenced possible) path T_DIR 0 0).bind ?_
    rintro - t done
    exact .pure (ok.finish_same done)
  | mknod cwd path major minor =>
    refine (sysMake_session ok.start (ok.referenced possible) path T_DEVICE major minor).bind ?_
    rintro - t done
    exact .pure (ok.finish_same done)
  | link cwd old new =>
    refine (sysLink_session ok.start (ok.referenced possible) old new
      (ok.referenced possible)).bind ?_
    rintro - t done
    exact .pure (ok.finish_same done)
  | unlink cwd path =>
    refine (sysUnlink_session ok.start (ok.referenced possible) path).bind ?_
    rintro - t done
    exact .pure (ok.finish_same done)
  | chdir cwd path =>
    refine (sysChdir_session (ok.lend (ok.referenced possible)) rfl path).bind ?_
    rintro new t done
    refine .pure (ok.finish_lent done (fun _ mem => mem) (fun j => ?_) fun j => ?_)
    · have count := erased j possible
      simp only [count_append, count_cons, count_nil] at count ⊢
      omega
    · have count := erased j possible
      simp only [count_append] at count ⊢
      omega
  | close file =>
    have count : ∀ j, ((sys.files.erase file).map fst).count j + [file.1].count j =
        (sys.files.map fst).count j := by
      intro j
      have whole := ((perm_cons_erase possible).map fst).count_eq j
      simp only [map_cons, count_cons, count_nil] at whole ⊢
      omega
    refine (drop_session (ok.lend (ok.file_referenced possible)) rfl).bind ?_
    rintro - t dropped
    refine .pure (ok.finish_lent dropped (fun _ mem => mem_of_mem_erase mem) (fun j => ?_)
      fun j => ?_)
    · have count := count j
      simp only [count_append, count_nil] at count ⊢
      omega
    · have count := count j
      simp only [count_append] at count ⊢
      omega
  | write file src off n =>
    refine (fileWrite_session ok.start ((ok.files file possible.1).2 possible.2) src off n).bind ?_
    rintro r t done
    exact .pure (ok.finish_same done)
  | read file dst off n =>
    refine (fileRead_session ok.start dst off n).bind ?_
    rintro r t done
    exact .pure (ok.finish_same done)
  | evict b =>
    let t := sys.disk.setData b (sys.disk.buf b).home
    have intact : Intact sb t := evict_intact ok.intact b
    have same : ∀ j, j < sb.ninodes → (node sb t j).type = (node sb sys.disk j).type := by
      intro j known
      by_cases clean : (sys.disk.buf b).home = sys.disk.image b
      · have image : t.image = sys.disk.image := by
          rw [image_setData, clean, update_eq_self]
        rw [node_of_same (t := sys.disk) image.symm rfl]
      · have low : sb.nmeta ≤ b :=
          Nat.le_of_not_lt fun low => clean (ok.intact.ok.logged b (.inl low))
        have apart : IBLOCK j sb ≠ b := by
          have below := iblock_lt ok.intact.ok.sound known
          omega
        have disk : t.dinode sb j = sys.disk.dinode sb j := by
          rw [dinode, image_setData, update_of_ne apart, dinode]
        rw [node_congr (t := t) (s := sys.disk) rfl disk]
    exact .bind_modifies (.pure (ok.finish_same
      (ok.start.same intact rfl (fun _ => ⟨rfl, rfl⟩) same)))

end SystemOk

theorem systemOk_boot (good : ImageOk sb img) : SystemOk sb (boot img) := by
  have node : node sb (boot img).disk = imageNode sb img := by
    funext i
    unfold Spec.node
    rw [if_neg fun live => absurd live.1 (lt_irrefl 0)]
    rfl
  have intact : Intact sb (boot img).disk := by
    refine ⟨⟨good.sound, ?_, fun _ _ => rfl, fun _ referenced => absurd referenced (lt_irrefl 0)⟩,
      good.root, fun _ referenced => absurd referenced (lt_irrefl 0), ?_, ?_,
      fun _ _ _ _ _ _ => rfl, by rintro _ ⟨⟩⟩
    · rw [References, node]
      exact good.owned
    · rw [node]
      exact good.whole
    · rw [node]
      exact good.names
  exact ⟨intact, rfl, fun _ => rfl, fun _ => zero_le _, by rintro _ ⟨⟩⟩

/-- What holds after every sequence of calls. -/
theorem systemOk_run (good : ImageOk sb img) {trace : List DiskAction}
    (run : (system sb img).Exec trace sys) : SystemOk sb sys := by
  refine run.invariant (fun _ sys => SystemOk sb sys) (fun s start => ?_)
    fun _ s action t ok stepped => ?_
  · rw [start]
    exact systemOk_boot good
  · exact (ok.perform_keeps stepped.1).result stepped.2

/-- A disk with three data blocks and three inodes, of which the first is not used. -/
def smallDisk : Superblock := ⟨FSMAGIC, 5, 3, 3, 0, 0, 0, 1⟩

/-- Its image: the root directory, in the first data block, has entries for itself only. -/
def smallImage : ℕ → Block := fun b a => (List.lookup (b, a) [((0, 64), 1), ((0, 70), 1),
  ((0, 72), 32), ((0, 76), 2), ((1, 0), 7), ((2, 0), 1), ((2, 2), 46), ((2, 16), 1), ((2, 18), 46),
  ((2, 19), 46)]).getD 0

/-- The root directory has the only block that is used. -/
theorem small_refers {a : ℕ × Place} {b : ℕ} :
    Refers smallDisk smallImage (imageNode smallDisk smallImage) a b ↔
      a = (1, .addr 0) ∧ b = 2 := by
  have nodes : ∀ i, i < 3 → (imageNode smallDisk smallImage i).type ≠ 0 → i = 1 := by decide
  have addrs : ∀ k, (imageNode smallDisk smallImage 1).addrs k = if k = 0 then 2 else 0 := by decide
  constructor
  · rintro ⟨known, typed, address, nonzero⟩
    obtain ⟨i, p⟩ := a
    obtain rfl : i = 1 := nodes i known typed
    cases p with
    | addr k =>
      rw [addrOf, addrs] at address
      split at address
      · rename_i first
        exact ⟨by rw [first], address.symm⟩
      · exact absurd address.symm nonzero
    | entry j =>
      rw [addrOf, addrs, if_pos (by decide)] at address
      exact absurd address.symm nonzero
  · rintro ⟨rfl, rfl⟩
    exact ⟨by decide, by decide, addrs 0, by decide⟩

theorem smallImage_ok : ImageOk smallDisk smallImage := by
  have nodes : ∀ i, i < 3 → (imageNode smallDisk smallImage i).type ≠ 0 → i = 1 := by decide
  refine ⟨⟨by decide, fun b inside => ?_, by decide, by decide⟩, by decide, ⟨fun a b there => ?_,
    fun a _ b there other => ?_, fun b inside => ?_⟩, fun i known typed bn below => ?_,
    fun i known directory k inside => ?_⟩
  · change b / BPB + 1 < 2
    rw [div_eq_of_lt (lt_trans inside (by decide))]
    decide
  · rw [(small_refers.mp there).2]
    decide
  · rw [(small_refers.mp there).1, (small_refers.mp other).1]
  · have marks : ∀ b, b < 5 →
        (getBit (smallImage (BBLOCK b smallDisk)) (b % BPB) = true ↔ b < 2 ∨ b = 2) := by decide
    rw [marks b inside]
    simp only [small_refers, exists_eq_left]
    rfl
  · obtain rfl := nodes i known typed
    have size : (imageNode smallDisk smallImage 1).size.toNat = 32 := by decide
    obtain rfl : bn = 0 := by
      rw [size, BSIZE] at below
      omega
    decide
  · obtain rfl := nodes i known (by rw [directory]; decide)
    have size : (imageNode smallDisk smallImage 1).size.toNat = 32 := by decide
    have both : ∀ k < 2, readLE (byteOf smallImage (imageNode smallDisk smallImage 1))
      (16 * k) 2 < 3 := by
      decide
    exact both k (by omega)

instance possibleDisk {s : DiskSystem} : (action : DiskAction) → Decidable (s.possible action)
  | .userinit => isTrue trivial
  | .evict _ => inferInstanceAs (Decidable (_ = _))
  | .write .. => inferInstanceAs (Decidable (_ ∧ _))
  | .fork _ | .exit _ | .openPath .. | .mkdir .. | .mknod .. | .link .. | .unlink .. | .chdir ..
  | .close _ | .read .. => inferInstanceAs (Decidable (_ ∈ _))

/-- An action that is possible and ends. -/
def tryDisk (s : DiskSystem) (action : DiskAction) : Option DiskSystem :=
  if s.possible action then (s.perform smallDisk action s.disk).toOption.map
    fun ((files, cwds), disk) => ⟨disk, files, cwds⟩ else none

/-- A file is created, written, removed and closed; another one is created, written and read. -/
def createAndRemove : List DiskAction :=
  let f : ℕ × Bool := (2, true)
  let mode := O_CREATE ||| O_RDWR
  [.userinit, .openPath 1 [102] mode true, .write f (fun k => [7, 8, 9][k]?) 0 3, .unlink 1 [102],
    .close f, .openPath 1 [103] mode true, .write f (fun k => [5, 6][k]?) 0 2,
    .read f (fun _ => true) 0 2]

/-- The second file has a block then, and can be locked and read. -/
theorem small_run : ∃ sys, (system smallDisk smallImage).Exec createAndRemove sys ∧
    sys.disk.used smallDisk 3 = true ∧ (sys.disk.dinode smallDisk 2).type = T_FILE ∧
    (sys.disk.dinode smallDisk 2).size = 2 ∧ ∃ t, ilock smallDisk 2 sys.disk = .ok ((), t) := by
  have start : (system smallDisk smallImage).init (boot smallImage) := rfl
  obtain ⟨sys, run, checked⟩ := StepSystem.exists_actions tryDisk (fun _ _ => True)
    start createAndRemove
    (fun sys => sys.disk.used smallDisk 3 && (sys.disk.dinode smallDisk 2).type = T_FILE &&
      (sys.disk.dinode smallDisk 2).size = 2 && (ilock smallDisk 2 sys.disk).toOption.isSome)
    (by decide +kernel)
  simp only [Bool.and_eq_true, decide_eq_true_eq] at checked
  obtain ⟨⟨⟨used, typed⟩, size⟩, locks⟩ := checked
  refine ⟨sys, run.mono (fun _ start => start) ?_, used, typed, size, ?_⟩
  · rintro s action t ⟨tried, -⟩
    obtain ⟨possible, tried⟩ := Option.ite_none_right_eq_some.mp tried
    obtain ⟨result, ran, rfl⟩ := Option.map_eq_some_iff.mp tried
    refine ⟨possible, ?_⟩
    cases done : s.perform smallDisk action s.disk with
    | ok after =>
      rw [done] at ran
      cases ran
      rfl
    | error _ =>
      rw [done] at ran
      contradiction
  · cases locked : ilock smallDisk 2 sys.disk with
    | ok after => exact ⟨after.2, rfl⟩
    | error _ =>
      rw [locked] at locks
      contradiction

/-- A block's bit is set exactly if the block is one of the metadata or an allocated inode refers to
it, which only one does, and once; no call frees a block that is free. -/
theorem blocks_owned_once (good : ImageOk sb img) {trace : List DiskAction}
    (run : (DiskSystem.system sb img).Exec trace sys) :
    (∀ b, b < sb.size → (sys.disk.used sb b = true ↔ b < sb.nmeta ∨
      ∃! a, Refers sb sys.disk.image (sys.disk.dinode sb) a b)) ∧
    (∀ a a' b, Refers sb sys.disk.image (sys.disk.dinode sb) a b →
      Refers sb sys.disk.image (sys.disk.dinode sb) a' b → a = a' ∧ sb.nmeta ≤ b ∧ b < sb.size) ∧
    ∀ action, sys.possible action →
      sys.perform sb action sys.disk ≠ .error .freeingFreeBlock := by
  have ok := systemOk_run good run
  have node : node sb sys.disk = sys.disk.dinode sb :=
    funext fun i => node_disk (ok.intact.written i)
  have owned := ok.intact.ok.owned
  rw [References, node] at owned
  refine ⟨fun b inside => ?_, fun a a' b one other => ?_, fun action possible panics => ?_⟩
  · rw [owned.exact b inside]
    constructor
    · rintro (low | ⟨a, there⟩)
      · exact .inl low
      · exact .inr ⟨a, there, fun a' other => owned.once a' a b other there⟩
    · rintro (low | ⟨a, there, -⟩)
      · exact .inl low
      · exact .inr ⟨a, there⟩
  · exact ⟨owned.once a a' b one other, owned.range a b one⟩
  · exact (ok.perform_keeps possible).error panics

/-- One place refers to the block of the second file. -/
theorem blocks_owned_once_small : ∃ sys,
    (DiskSystem.system smallDisk smallImage).Exec createAndRemove sys ∧
      sys.disk.used smallDisk 3 = true ∧
      (∃! a, Refers smallDisk sys.disk.image (sys.disk.dinode smallDisk) a 3) ∧
      ∀ action, sys.possible action →
        sys.perform smallDisk action sys.disk ≠ .error .freeingFreeBlock := by
  obtain ⟨sys, run, used, -⟩ := small_run
  obtain ⟨marks, -, frees⟩ := blocks_owned_once smallImage_ok run
  exact ⟨sys, run, used, ((marks 3 (by decide)).mp used).resolve_left (by decide), frees⟩

/-- No file has a hole, so a read finds all its blocks and changes nothing; no call logs a block
outside of a transaction. -/
theorem reads_never_allocate (good : ImageOk sb img) {trace : List DiskAction}
    (run : (DiskSystem.system sb img).Exec trace sys) :
    (∀ i, i < sb.ninodes → (sys.disk.dinode sb i).type ≠ 0 →
      HoleFree sys.disk.image (sys.disk.dinode sb i)) ∧
    (∀ i t, Disk.ilock sb i sys.disk = .ok ((), t) → ∀ dst off (n : BitVec 32),
      ∃ r, Disk.readi sb i dst off n.toNat t = .ok (r, t)) ∧
    ∀ action, sys.possible action → sys.perform sb action sys.disk ≠ .error .logWrite := by
  have ok := systemOk_run good run
  refine ⟨fun i known typed => ?_, fun i t locked dst off n => ?_, fun action possible panics => ?_⟩
  · have whole := ok.intact.whole i known
    rw [node_disk (ok.intact.written i)] at whole
    exact whole typed
  · obtain ⟨session, -⟩ := (ilock_session ok.start i).result locked
    exact readi_session session (mem_cons_self ..) dst off n.isLt
  · exact (ok.perform_keeps possible).error panics

/-- The second file can be read wherever one likes. -/
theorem reads_never_allocate_small : ∃ sys t,
    (DiskSystem.system smallDisk smallImage).Exec createAndRemove sys ∧
      (sys.disk.dinode smallDisk 2).size = 2 ∧
      HoleFree sys.disk.image (sys.disk.dinode smallDisk 2) ∧
      Disk.ilock smallDisk 2 sys.disk = .ok ((), t) ∧ ∀ dst off (n : BitVec 32),
        ∃ r, Disk.readi smallDisk 2 dst off n.toNat t = .ok (r, t) := by
  obtain ⟨sys, run, -, typed, size, t, locked⟩ := small_run
  obtain ⟨whole, reads, -⟩ := reads_never_allocate smallImage_ok run
  exact ⟨sys, t, run, size, whole 2 (by decide) (by rw [typed]; decide), locked, reads 2 t locked⟩

end Run

end Xv6Cos.Verif
