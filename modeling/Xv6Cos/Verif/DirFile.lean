import Xv6Cos.Kernel.DirFile
import Xv6Cos.Verif.InodeCalls

/-!
# Directories and system calls keep the disk intact

Every function is a rule about a `Session`, proved from the rules of the functions that it calls.
-/

namespace Xv6Cos.Verif

open Kernel Spec Bytes Program List Disk Nat

variable {sb : Superblock} {s₀ s t : Disk} {i dp b : ℕ} {held locked : List ℕ} {panic : FsPanic}
  {off inum ip cwd : ℕ}

section Scan

/-- What a loop over the entries of a directory has found. -/
structure Found (s : Disk) (i : ℕ) (found : (ℕ → UInt8) → Bool) (result : ℕ × Option (ℕ → UInt8)) :
    Prop where
  aligned : result.1 % 16 = 0
  inside : ∀ de, result.2 = some de → result.1 + 16 ≤ (s.icache i).copy.size.toNat
  matching : ∀ de, result.2 = some de → found de = true
  bytes : ∀ de, result.2 = some de → ∀ k, k < 16 →
    de k = byteOf s.image (s.icache i).copy (result.1 + k)

variable (session : Session sb s₀ held locked s) (mem : i ∈ locked)

include session mem

theorem scan_session (fine : Benign panic) (found : (ℕ → UInt8) → Bool) (fuel : ℕ)
    (aligned : off % 16 = 0) :
    Keeps (scan sb i panic found fuel off) s fun result t => s = t ∧ Found s i found result := by
  induction fuel generalizing off with
  | zero => exact .pure ⟨rfl, aligned, nofun, nofun, nofun⟩
  | succ fuel ih =>
    refine .bind_reads ?_
    by_cases below : off < (s.icache i).copy.size.toNat
    · rw [if_pos below]
      have ran := @readi_all sb s i (fun _ => true) 16 off _ rfl
        (fun _ inside => present_of_holeFree (session.whole mem) (by decide) inside)
        (fun _ _ => rfl)
      refine .bind_ok ran ?_
      by_cases full : (readLength (s.icache i).copy.size.toNat off 16 : Int) = 16
      · have length : readLength (s.icache i).copy.size.toNat off 16 = 16 := by exact_mod_cast full
        have inside : off + 16 ≤ (s.icache i).copy.size.toNat := by
          unfold readLength at length
          split at length
          · omega
          · split at length
            · omega
            · rename_i start short
              have small := (s.icache i).copy.size.isLt
              omega
        let de : ℕ → UInt8 := fun k => (bytesOf s.image (s.icache i).copy off (off + 16)).getD k 0
        have bytes : ∀ k, k < 16 → de k = byteOf s.image (s.icache i).copy (off + k) := by
          intro k small
          change List.getD _ k 0 = _
          rw [bytesOf, getD_eq_getElem?_getD, List.getElem?_map, List.getElem?_range']
          · simp
          · omega
        dsimp only
        rw [if_pos full, length]
        by_cases hit : found de = true
        · rw [if_pos hit]
          refine .pure ⟨rfl, aligned, fun _ _ => inside, fun _ same => ?_, fun _ same => ?_⟩
          · rwa [← Option.some.inj same]
          · rw [← Option.some.inj same]
            exact bytes
        · rw [if_neg hit]
          exact ih (by omega)
      · dsimp only
        rw [if_neg full]
        exact fine
    · rw [if_neg below]
      exact .pure ⟨rfl, aligned, nofun, nofun, nofun⟩

theorem scanFrom_session (fine : Benign panic) (found : (ℕ → UInt8) → Bool)
    (aligned : off % 16 = 0) :
    Keeps (scanFrom sb i panic found off) s fun result t =>
      s = t ∧ Found s i found result :=
  .bind_reads (scan_session session mem fine found _ aligned)

theorem dirlookup_session (name : ℕ → UInt8) :
    Keeps (dirlookup sb i name) s fun result t => match result with
      | none => s = t
      | some (off, ip) => Session sb s₀ (ip :: held) locked t ∧ off % 16 = 0 ∧ ip < sb.ninodes := by
  refine keeps_check_bind True.intro fun directory => ?_
  refine (scanFrom_session session mem (by trivial) _ rfl).bind ?_
  rintro ⟨off, result⟩ t ⟨rfl, found⟩
  cases result with
  | none => exact .pure rfl
  | some de =>
    have directory : (s.icache i).copy.type = T_DIR := of_decide_eq_true directory
    have known := session.known mem
    have aligned := found.aligned
    have inum : entryInum de < sb.ninodes := by
      have names := session.intact.names i known.1
      rw [session.node_locked mem] at names
      have inside := names directory (off / 16) (by
        have inside := found.inside de rfl
        omega)
      have start : 16 * (off / 16) = off := by omega
      have low := found.bytes de rfl 0 (by decide)
      have high := found.bytes de rfl 1 (by decide)
      rw [start] at inside
      simp only [entryInum, readLE, add_zero, zero_add] at inside low high ⊢
      rw [low, high]
      exact inside
    refine (iget_session session inum).bind ?_
    rintro - t ⟨got, -⟩
    exact .pure ⟨got, found.aligned, inum⟩

omit session mem in
/-- An entry that is written names an inode of the disk. -/
theorem entryWrite_entryBytes (known : inum < sb.ninodes) (aligned : off % 16 = 0)
    (name : ℕ → UInt8) : EntryWrite sb (fun k => some (entryBytes inum name k)) off 16 where
  entry := aligned
  length := rfl
  readable _ := rfl
  inum := by
    change readLE (entryBytes inum name) 0 2 < sb.ninodes
    have fits : inum % 2 ^ 16 < 256 ^ 2 := mod_lt _ (by decide)
    rw [entryBytes, readLE_writeLE fits]
    exact lt_of_le_of_lt (mod_le _ _) known

theorem dirlink_session (running : 0 < s₀.outstanding)
    (sub : ∀ j ∈ locked, 0 < (s₀.icache j).ref + held.count j)
    (name : ℕ → UInt8) (known : inum < sb.ninodes) :
    Keeps (dirlink sb i name inum) s fun _ t => Session sb s₀ held locked t := by
  refine (dirlookup_session session mem name).bind ?_
  rintro (_ | ⟨off, ip⟩) t found
  · obtain rfl : s = t := found
    refine (scanFrom_session session mem (by trivial) _ rfl).bind ?_
    rintro ⟨off, result⟩ t ⟨rfl, found⟩
    refine (writei_session session mem running (by decide) fun _ =>
      entryWrite_entryBytes known found.aligned name).bind ?_
    rintro r t ⟨wrote, -, -⟩
    exact .pure wrote
  · refine (iput_session found.1 running (sub ip)).bind ?_
    rintro - t dropped
    exact .pure dropped

theorem isdirempty_session :
    Keeps (isdirempty sb i) s fun _ t => s = t := by
  refine (scanFrom_session session mem (by trivial) _ rfl).bind ?_
  rintro result t ⟨rfl, -⟩
  exact .pure rfl

theorem hasEntries_session : Keeps (hasEntries sb i) s fun _ t => s = t := by
  refine .bind_reads ?_
  by_cases directory : (s.icache i).copy.type = T_DIR
  · rw [if_pos directory]
    refine (isdirempty_session session mem).bind ?_
    rintro result t rfl
    exact .pure rfl
  · rw [if_neg directory]
    exact .pure rfl

end Scan

section Namex

theorem namexGo_session (running : 0 < s₀.outstanding) (parent : Bool) (fuel : ℕ)
    (path name : Path) (session : Session sb s₀ (ip :: held) [] s) :
    Keeps (namexGo sb parent fuel ip path name) s fun result t => match result with
      | none => Session sb s₀ held [] t
      | some (ip, _) => Session sb s₀ (ip :: held) [] t := by
  induction fuel generalizing ip path name s with
  | zero => exact .pure session
  | succ fuel ih =>
    unfold namexGo
    cases skipelem path with
    | none =>
      cases parent with
      | true =>
        refine (iput_session session running (by simp)).bind ?_
        rintro - t dropped
        exact .pure dropped
      | false => exact .pure session
    | some step =>
      obtain ⟨name, rest⟩ := step
      refine (ilock_session session ip).bind ?_
      rintro - t ⟨locked, -⟩
      refine .bind_reads ?_
      by_cases directory : (t.icache ip).copy.type ≠ T_DIR
      · rw [if_pos directory]
        refine (iunlockput_session locked running).bind ?_
        rintro - u dropped
        exact .pure dropped
      · rw [if_neg directory]
        by_cases last : parent = true ∧ rest = []
        · rw [if_pos last]
          refine (iunlock_session locked).bind ?_
          rintro - u ⟨unlocked, -⟩
          exact .pure unlocked
        · rw [if_neg last]
          refine (dirlookup_session locked (mem_cons_self ..) (cstr name)).bind ?_
          rintro (_ | ⟨off, next⟩) u found
          · obtain rfl : t = u := found
            refine (iunlockput_session locked running).bind ?_
            rintro - u dropped
            exact .pure dropped
          · have held := found.1.perm (List.Perm.swap ip next held) (List.Perm.refl _)
            refine (iunlockput_session held running).bind ?_
            rintro - v dropped
            exact ih rest name dropped

section

variable (session : Session sb s₀ held [] s) (running : 0 < s₀.outstanding)
  (referenced : 0 < (s.icache cwd).ref) (path : Path)

include session running referenced path

theorem namex_session (parent : Bool) :
    Keeps (namex sb cwd path parent) s fun result t => match result with
      | none => Session sb s₀ held [] t
      | some (ip, _) => Session sb s₀ (ip :: held) [] t := by
  unfold namex
  by_cases absolute : path.head? = some 47
  · rw [if_pos absolute]
    refine (iget_session session session.intact.root).bind ?_
    rintro - t ⟨got, -⟩
    exact namexGo_session running parent _ path [] got
  · rw [if_neg absolute]
    refine (idup_session session referenced).bind ?_
    rintro - t got
    exact namexGo_session running parent _ path [] got

theorem namei_session :
    Keeps (namei sb cwd path) s fun result t => match result with
      | none => Session sb s₀ held [] t
      | some ip => Session sb s₀ (ip :: held) [] t := by
  refine (namex_session session running referenced path false).bind ?_
  rintro (_ | ⟨ip, name⟩) t found
  · exact .pure found
  · exact .pure found

end

end Namex

section Create

variable (running : 0 < s₀.outstanding)

include running

theorem setNlink_session (session : Session sb s₀ held locked s) (mem : i ∈ locked)
    (f : BitVec 16 → BitVec 16) :
    Keeps (setNlink sb i f) s fun _ t => Session sb s₀ held locked t := by
  refine (update_session session mem running (f := fun ip => { ip with nlink := f ip.nlink })
    (fun _ => rfl) (fun _ => rfl) fun _ => rfl).mono ?_
  rintro - t ⟨updated, -⟩
  exact updated

theorem countParent_session (session : Session sb s₀ held locked s) (mem : i ∈ locked)
    (type : BitVec 16) (f : BitVec 16 → BitVec 16) :
    Keeps (countParent sb i type f) s fun _ t => Session sb s₀ held locked t := by
  unfold countParent
  by_cases directory : type = T_DIR
  · rw [if_pos directory]
    exact setNlink_session running session mem f
  · rw [if_neg directory]
    exact .pure session

/-- What `create` returns: nothing, or a locked inode, which is a directory only if it was to be
one. -/
def Created (sb : Superblock) (s₀ : Disk) (held : List ℕ) (type : BitVec 16) :
    Option ℕ → Disk → Prop
  | none, t => Session sb s₀ held [] t
  | some ip, t => Session sb s₀ (ip :: held) [ip] t ∧ (type = T_FILE → (node sb t ip).type ≠ T_DIR)

theorem createOld_session (session : Session sb s₀ (ip :: dp :: held) [dp] s)
    (type : BitVec 16) : Keeps (createOld sb dp ip type) s (Created sb s₀ held type) := by
  have held := session.perm (List.Perm.swap dp ip held) (List.Perm.refl _)
  refine (iunlockput_session held running).bind ?_
  rintro - t dropped
  refine (ilock_session dropped ip).bind ?_
  rintro - u ⟨locked, -⟩
  refine .bind_reads ?_
  by_cases opens : type = T_FILE ∧
      ((u.icache ip).copy.type = T_FILE ∨ (u.icache ip).copy.type = T_DEVICE)
  · rw [if_pos opens]
    refine .pure ⟨locked, fun _ => ?_⟩
    rw [locked.node_locked (mem_cons_self ..)]
    rcases opens.2 with file | device
    · rw [file]
      decide
    · rw [device]
      decide
  · rw [if_neg opens]
    refine (iunlockput_session locked running).bind ?_
    rintro - v dropped
    exact .pure dropped

theorem createEntries_session (session : Session sb s₀ held [ip, dp] s)
    (sub : ∀ j ∈ [ip, dp], 0 < (s₀.icache j).ref + held.count j)
    (name : Path) (type : BitVec 16) : Keeps (createEntries sb dp ip name type) s fun _ t =>
      Session sb s₀ held [ip, dp] t := by
  have first : ip ∈ [ip, dp] := mem_cons_self ..
  have second : dp ∈ [ip, dp] := mem_pair.mpr (.inr rfl)
  have known : ip < sb.ninodes := (session.known first).1
  have parent : dp < sb.ninodes := (session.known second).1
  unfold createEntries
  by_cases directory : type = T_DIR
  · rw [if_pos directory]
    refine (dirlink_session session first running sub _ known).bind ?_
    rintro (_ | _) t session
    · exact .pure session
    · refine (dirlink_session session first running sub _ parent).bind ?_
      rintro (_ | _) u session
      · exact .pure session
      · exact dirlink_session session second running sub _ known
  · rw [if_neg directory]
    exact dirlink_session session second running sub _ known

theorem createNew_session (session : Session sb s₀ (ip :: dp :: held) [dp] s) (name : Path)
    (type major minor : BitVec 16) (made : (node sb s ip).type = type) :
    Keeps (createNew sb dp ip name type major minor) s (Created sb s₀ held type) := by
  have first : ip ∈ [ip, dp] := mem_cons_self ..
  have second : dp ∈ [ip, dp] := mem_pair.mpr (.inr rfl)
  refine (ilock_session session ip).bind ?_
  rintro - t ⟨locked, entry⟩
  refine .regroup ((update_session locked first running
    (f := fun node => { node with major := major, minor := minor, nlink := 1 })
    (fun _ => rfl) (fun _ => rfl) fun _ => rfl).bind ?_)
  rintro - u ⟨outer, entry'⟩
  have kind : (node sb u ip).type = type := by
    rw [outer.node_locked first, entry', Function.update_self, entry, Function.update_self]
    exact made
  -- The new inode keeps its type while its reference is not given away.
  have inner := Session.rebase [ip] outer
  have sub : ∀ j ∈ [ip, dp], 0 < ((Session.rebased s₀ u [ip]).icache j).ref +
    (dp :: held).count j := by
    intro j mem
    rcases mem_pair.mp mem with rfl | rfl
    · change 0 < (s₀.icache j).ref + [j].count j + _
      rw [count_singleton_self]
      omega
    · rw [count_cons_self]
      omega
  have running' : 0 < (Session.rebased s₀ u [ip]).outstanding := by
    change 0 < u.outstanding
    rwa [outer.outstanding]
  refine (createEntries_session running' inner sub name type).bind ?_
  rintro (_ | _) v inner
  · have session := (outer.unbase [ip] inner).1
    refine (setNlink_session running session first _).bind ?_
    rintro - t session
    refine (iunlockput_session session running).bind ?_
    rintro - t session
    refine (iunlockput_session session running).bind ?_
    rintro - t session
    exact .pure session
  · refine (countParent_session running' inner second type _).bind ?_
    rintro - t inner
    have swapped := inner.perm (List.Perm.refl _) (List.Perm.swap dp ip [])
    refine (iunlockput_session swapped running').bind ?_
    rintro - t inner
    obtain ⟨session, kept⟩ := outer.unbase [ip] inner
    refine .pure ⟨session, fun file => ?_⟩
    have same := kept ip (mem_singleton_self ip) (by
      rw [kind, file]
      decide)
    rw [same, kind, file]
    decide

/-- `create`. -/
theorem create_session (session : Session sb s₀ held [] s)
    (referenced : 0 < (s.icache cwd).ref) (path : Path) (type major minor : BitVec 16) :
    Keeps (create sb cwd path type major minor) s (Created sb s₀ held type) := by
  refine (namex_session session running referenced path true).bind ?_
  rintro (_ | ⟨dp, name⟩) t found
  · exact .pure found
  · refine (ilock_session found dp).bind ?_
    rintro - t ⟨locked, -⟩
    refine (dirlookup_session locked (mem_cons_self ..) (cstr name)).bind ?_
    rintro (_ | ⟨off, ip⟩) u found
    · obtain rfl : t = u := found
      refine (ialloc_session locked running type).bind ?_
      rintro (_ | ip) t made
      · refine (iunlockput_session made running).bind ?_
        rintro - t dropped
        exact .pure dropped
      · exact createNew_session running made.2 name type major minor made.1
    · exact createOld_session running found.1 type

end Create

end Xv6Cos.Verif
