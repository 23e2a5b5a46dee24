import Xv6Cos.Verif.DirFile

/-!
# Each system call leaves the disk intact

The rules for whole system calls. A call starts and ends with no inode locked; relative to the state
at its start, it has kept the references that it returns.
-/

namespace Xv6Cos.Verif

open Kernel Spec Bytes Program Disk List

variable {sb : Superblock} {s₀ s t : Disk} {i dp b cwd : ℕ} {held locked : List ℕ} {α : Type}

section Calls

variable (running : 0 < s₀.outstanding)

include running

theorem openInode_session (session : Session sb s₀ held [] s) (referenced : 0 < (s.icache cwd).ref)
    (path : Path) (omode : BitVec 32) :
    Keeps (openInode sb cwd path omode) s fun result t => match result with
      | none => Session sb s₀ held [] t
      | some ip => Session sb s₀ (ip :: held) [ip] t ∧
          (omode ≠ 0 → (node sb t ip).type ≠ T_DIR) := by
  unfold openInode
  by_cases creates : omode &&& O_CREATE ≠ 0
  · rw [if_pos creates]
    refine (create_session running session referenced path T_FILE 0 0).mono ?_
    rintro (_ | ip) t made
    · exact made
    · exact ⟨made.1, fun _ => made.2 rfl⟩
  · rw [if_neg creates]
    refine (namei_session session running referenced path).bind ?_
    rintro (_ | ip) t found
    · exact .pure found
    · refine (ilock_session found ip).bind ?_
      rintro - u ⟨locked, -⟩
      refine .bind_reads ?_
      by_cases refused : (u.icache ip).copy.type = T_DIR ∧ omode ≠ 0
      · rw [if_pos refused]
        refine (iunlockput_session locked running).bind ?_
        rintro - v dropped
        exact .pure dropped
      · rw [if_neg refused]
        refine .pure ⟨locked, fun writes directory => refused ⟨?_, writes⟩⟩
        rwa [← locked.node_locked (mem_cons_self ..)]

/-- `open` of a locked inode. -/
theorem openFile_session (session : Session sb s₀ (i :: held) [i] s) (omode : BitVec 32)
    (kind : omode ≠ 0 → (node sb s i).type ≠ T_DIR) (room : Bool) :
    Keeps (openFile sb i omode room) s fun result t => match result with
      | none => Session sb s₀ held [] t
      | some file => Session sb s₀ (file.1 :: held) [] t ∧ (node sb t file.1).type ≠ 0 ∧
          (file.2 = true → (node sb t file.1).type ≠ T_DIR) := by
  refine .bind_reads ?_
  by_cases refused : (s.icache i).copy.type = T_DEVICE ∧
      ((s.icache i).copy.major.toInt < 0 ∨ NDEV ≤ (s.icache i).copy.major.toInt) ∨ !room
  · rw [if_pos refused]
    refine (iunlockput_session session running).bind ?_
    rintro - t dropped
    exact .pure dropped
  · rw [if_neg refused]
    have mem : i ∈ [i] := mem_cons_self ..
    have truncated : Keeps (openTrunc sb i omode) s fun _ t =>
        Session sb s₀ (i :: held) [i] t ∧ (node sb t i).type = (node sb s i).type := by
      refine .bind_reads ?_
      by_cases cut : omode &&& O_TRUNC ≠ 0 ∧ (s.icache i).copy.type = T_FILE
      · rw [if_pos cut]
        refine (itrunc_session session mem running).mono ?_
        rintro - t ⟨session', entry⟩
        refine ⟨session', ?_⟩
        rw [session'.node_locked mem, entry, Function.update_self, session.node_locked mem]
        rfl
      · rw [if_neg cut]
        exact .pure ⟨session, rfl⟩
    refine truncated.bind ?_
    rintro - t ⟨session', same⟩
    refine (iunlock_session session').bind ?_
    rintro - u ⟨unlocked, buf⟩
    have node : node sb u i = Spec.node sb t i := by
      rw [node_disk (unlocked.intact.written i), node_disk (session'.intact.written i), dinode,
        image, buf, dinode, image]
    refine .pure ⟨unlocked, ?_, fun writable => ?_⟩
    · rw [node, session'.node_locked mem]
      exact (session'.known mem).2
    · rw [node, same]
      refine kind ?_
      rintro rfl
      contradiction

/-- `link` after the link has been counted. -/
theorem linkTo_session (session : Session sb s₀ (i :: held) [] s) (known : i < sb.ninodes)
    (referenced : 0 < (s.icache cwd).ref) (new : Path) :
    Keeps (linkTo sb cwd i new) s fun _ t => Session sb s₀ held [] t := by
  have linked : Keeps (linkIn sb cwd i new) s fun _ t => Session sb s₀ (i :: held) [] t := by
    refine (namex_session session running referenced new true).bind ?_
    rintro (_ | ⟨dp, name⟩) t found
    · exact .pure found
    · refine (ilock_session found dp).bind ?_
      rintro - t ⟨locked, -⟩
      have sub : ∀ j ∈ [dp], 0 < (s₀.icache j).ref + (dp :: i :: held).count j := by
        intro j mem
        rw [mem_singleton.mp mem, count_cons_self]
        omega
      refine (dirlink_session locked (mem_cons_self ..) running sub _ known).bind ?_
      rintro result u linked
      refine (iunlockput_session linked running).bind ?_
      rintro - v dropped
      exact .pure dropped
  refine linked.bind ?_
  rintro (_ | _) t session
  · refine (ilock_session session i).bind ?_
    rintro - u ⟨locked, -⟩
    refine (setNlink_session running locked (mem_cons_self ..) _).bind ?_
    rintro - v counted
    exact iunlockput_session counted running
  · exact iput_session session running (by simp)

theorem unlinkEntry_session {off : ℕ} (session : Session sb s₀ (i :: dp :: held) [i, dp] s)
    (aligned : off % 16 = 0) :
    Keeps (unlinkEntry sb dp i off) s fun _ t => Session sb s₀ held [] t := by
  have first : i ∈ [i, dp] := mem_cons_self ..
  have second : dp ∈ [i, dp] := mem_pair.mpr (.inr rfl)
  have entry : EntryWrite sb (fun _ => some 0) off 16 := by
    refine ⟨aligned, rfl, fun _ => rfl, ?_⟩
    have root := session.intact.root
    have zero : readLE (fun k : ℕ => ((fun _ => some 0 : ℕ → Option UInt8) k).getD 0) 0 2 = 0 := rfl
    rw [zero]
    omega
  refine (writei_session session second running (by decide) fun _ => entry).bind ?_
  rintro r t ⟨session, -, -⟩
  by_cases whole : r = 16
  · rw [if_pos whole]
    refine .bind_reads ((countParent_session running session second _ _).bind ?_)
    rintro - t session
    have swapped := session.perm (List.Perm.swap dp i held) (List.Perm.swap dp i [])
    refine (iunlockput_session swapped running).bind ?_
    rintro - t session
    refine (setNlink_session running session (mem_cons_self ..) _).bind ?_
    rintro - t session
    exact iunlockput_session session running
  · rw [if_neg whole]
    exact .fail True.intro

theorem unlinkIn_session (session : Session sb s₀ (dp :: held) [dp] s) (name : Path) :
    Keeps (unlinkIn sb dp name) s fun _ t => Session sb s₀ held [] t := by
  unfold unlinkIn
  split
  · exact iunlockput_session session running
  · refine (dirlookup_session session (mem_cons_self ..) (cstr name)).bind ?_
    rintro (_ | ⟨off, ip⟩) t found
    · obtain rfl : s = t := found
      exact iunlockput_session session running
    · refine (ilock_session found.1 ip).bind ?_
      rintro - u ⟨locked, -⟩
      refine keeps_check_bind True.intro fun _ => ?_
      refine (hasEntries_session locked (mem_cons_self ..)).bind ?_
      rintro full v rfl
      cases full with
      | true =>
        refine (iunlockput_session locked running).bind ?_
        rintro - t session
        exact iunlockput_session session running
      | false => exact unlinkEntry_session running locked found.2.1

end Calls

section Transactions

/-- The disk when a transaction has begun. -/
def begun (s : Disk) : Disk := { s with outstanding := s.outstanding + 1 }

/-- A system call is one transaction. -/
theorem transaction_session {body : DiskProg α} {held : List ℕ} (own : α → List ℕ)
    (also : α → Disk → Prop) (session : Session sb s₀ held [] s)
    (also_congr : ∀ a t u, t.image = u.image → t.icache = u.icache → also a t → also a u)
    (kept : ∀ s₁, 0 < s₁.outstanding → s₁.icache = s₀.icache → Session sb s₁ held [] (begun s) →
      Keeps body (begun s) fun a t => Session sb s₁ (own a) [] t ∧ also a t) :
    Keeps (transaction body) s fun a t => Session sb s₀ (own a) [] t ∧ also a t := by
  let s₁ := begun s₀
  have start : Session sb s₁ held [] (begun s) := { session with
    intact := intact_congr session.intact rfl rfl
    outstanding := congrArg (· + 1) session.outstanding }
  refine .bind_modifies ((kept s₁ (Nat.succ_pos _) rfl start).bind ?_)
  rintro a t ⟨done, more⟩
  have ok := done.intact.ok
  refine .bind_modifies (.pure ⟨{ done with
    intact := ⟨⟨ok.sound, ok.owned, ok.logged, ok.entries⟩, done.intact.root, done.intact.written,
      done.intact.whole, done.intact.names, done.intact.settled, done.intact.locks⟩
    outstanding := ?_ }, also_congr a t _ rfl rfl more⟩)
  change t.outstanding - 1 = s₀.outstanding
  rw [done.outstanding]
  exact Nat.add_sub_cancel _ _

/-- A transaction whose result does not matter. -/
theorem transaction_plain {body : DiskProg α} {held held' : List ℕ}
    (session : Session sb s₀ held [] s)
    (kept : ∀ s₁, 0 < s₁.outstanding → s₁.icache = s₀.icache → Session sb s₁ held [] (begun s) →
      Keeps body (begun s) fun _ t => Session sb s₁ held' [] t) :
    Keeps (transaction body) s fun _ t => Session sb s₀ held' [] t := by
  refine (transaction_session (fun _ => held') (fun _ _ => True) session
    (fun _ _ _ _ _ _ => True.intro) fun s₁ running same start => ?_).mono fun _ _ done => done.1
  exact (kept s₁ running same start).mono fun _ _ done => ⟨done, True.intro⟩

end Transactions

end Xv6Cos.Verif
