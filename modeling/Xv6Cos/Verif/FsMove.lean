import Xv6Cos.Verif.FsTree

/-!
# What a process can do in one step

The code of the system calls, cut into steps, as a list of moves: what each does to the inodes, to
the references and to the place of the process. All that is proved about steps is proved of moves.
-/

namespace Xv6Cos.Verif

open Kernel Spec Function List Option Dirent FsTree

variable {call : FsCall} {ip dp : ℕ} {path name : Path} {new : NewNode} {choice : FsChoice}

/-- The process goes on with its references and some more. -/
structure Retains (old new : FsPlace) (extra : List ℕ) : Prop where
  refs : ∀ i, (placeRefs new).count i = (placeRefs old).count i + extra.count i
  keeps : ∀ i ∈ placeKeeps new, i ∈ placeKeeps old ∨ i ∈ extra
  handles : ∀ i ∈ placeHandles new, i ∈ placeHandles old ∨ i ∈ extra
  pends : ∀ i, placePend i new = placePend i old
  making : placeMaking new = none

/-- The process goes on there; other processes, current directories and the committed inodes
stay. -/
structure Shifts (s t : FsTree) (p : Fin NPROC) (new : FsPlace) : Prop where
  place : t.place = update s.place p new
  saved : t.committed = s.committed
  cwd : t.cwd = s.cwd

/-- An inode that a process finds by a lookup. -/
def Known (s : FsTree) (p : Fin NPROC) (x : ℕ) : Prop :=
  x = ROOTINO ∨ s.cwd p = some x ∨ ∃ d de, HasEntry s.node d de ∧ de.inum = x

/-- The entries that `create` gives a new inode. -/
inductive Fills (new : NewNode) (dp ip : ℕ) (slots : List Dirent) : List Dirent → Prop
  | other : new.type ≠ .dir → Fills new dp ip slots slots
  | dir {first second : List Dirent} {room room' : Bool} : new.type = .dir →
      dirlink slots Dirent.dot ip room = some first →
      dirlink first Dirent.dotdot dp room' = some second → Fills new dp ip slots second

/-- What a process can do next in its call. -/
inductive FsMove (n : ℕ) (s : FsTree) (p : Fin NPROC) (t : FsTree) : Prop
  /-- Nothing but its place changes. -/
  | stay (new : FsPlace) : Shifts s t p new → t.node = s.node → t.ref = s.ref →
      t.files = s.files → Retains (s.place p) new [] → FsMove n s p t
  /-- It gets a reference. -/
  | get (new : FsPlace) (x : ℕ) : Shifts s t p new → t.node = s.node →
      t.ref = update s.ref x (s.ref x + 1) → t.files = s.files →
      Retains (s.place p) new [x] → Known s p x → FsMove n s p t
  /-- `ialloc`. -/
  | alloc (new : NewNode) (dp : ℕ) (name : Path) (j : ℕ) :
      s.place p = .parent (.create new) dp name → (s.node dp).type = .dir → 0 < j → j < n →
      (s.node j).type = .free → Shifts s t p (.alloc new dp name j) →
      t.node = update s.node j { Node.zero with type := new.type } → t.ref = s.ref →
      t.files = s.files → FsMove n s p t
  /-- `iget` of the new inode. -/
  | hold (new : NewNode) (dp : ℕ) (name : Path) (ip : ℕ) : s.place p = .alloc new dp name ip →
      Shifts s t p (.fill new dp name ip) → t.node = s.node →
      t.ref = update s.ref ip (s.ref ip + 1) → t.files = s.files → FsMove n s p t
  /-- `create` succeeds; the inode is opened or put. -/
  | made (new : NewNode) (dp : ℕ) (name : Path) (ip : ℕ) (slots entries : List Dirent)
      (room opened : Bool) (filled : Nodes) : s.place p = .fill new dp name ip →
      Fills new dp ip (s.node ip).slots slots →
      filled = update s.node ip { s.node ip with
        major := new.major, minor := new.minor, nlink := 1, slots := slots } →
      dirlink (filled dp).slots name ip room = some entries →
      Shifts s t p (.drop dp (if opened then .finish else .drop ip .finish)) →
      t.node = update filled dp { filled dp with
        slots := entries
        nlink := if new.type = .dir then (filled dp).nlink + 1 else (filled dp).nlink } →
      t.ref = s.ref → t.files = (if opened then ip :: s.files else s.files) → FsMove n s p t
  /-- `create` fails. -/
  | failed (new : NewNode) (dp : ℕ) (name : Path) (ip : ℕ) (slots : List Dirent)
      (major minor : BitVec 16) : s.place p = .fill new dp name ip →
      (slots = (s.node ip).slots ∨ Fills new dp ip (s.node ip).slots slots ∨
        ∃ room room', dirlink (s.node ip).slots Dirent.dot ip room = some slots ∧
          dirlink slots Dirent.dotdot dp room' = none) →
      Shifts s t p (.drop ip (.drop dp .finish)) →
      t.node = update s.node ip { s.node ip with
        major := major, minor := minor, nlink := 0, slots := slots } →
      t.ref = s.ref → t.files = s.files → FsMove n s p t
  /-- `unlink` removes an entry. -/
  | unlinked (dp : ℕ) (name : Path) (x : ℕ) (cleared : Nodes) :
      s.place p = .parent .unlink dp name → name ≠ Dirent.dot → name ≠ Dirent.dotdot →
      (s.node dp).type = .dir →
      dirlookup (s.node dp).slots name = some x → x ≠ dp → 1 ≤ (s.node x).nlink.toInt →
      ((s.node x).type = .dir → isdirempty (s.node x).slots) →
      cleared = update s.node dp { s.node dp with
        slots := clearEntry name (s.node dp).slots
        nlink := if (s.node x).type = .dir then (s.node dp).nlink - 1 else (s.node dp).nlink } →
      Shifts s t p (.drop dp (.drop x .finish)) →
      t.node = update cleared x
        { cleared x with nlink := (cleared x).nlink - 1 } →
      t.ref = update s.ref x (s.ref x + 1) → t.files = s.files → FsMove n s p t
  /-- `link` counts a link, and starts with its second path. -/
  | counted (ip : ℕ) (path : Path) (start : ℕ) : s.place p = .target (.linkOld path) ip →
      (s.node ip).type ≠ .dir → Known s p start →
      Shifts s t p (.walk (.linkNew ip) start path) →
      t.node = update s.node ip { s.node ip with nlink := (s.node ip).nlink + 1 } →
      t.ref = update s.ref start (s.ref start + 1) → t.files = s.files → FsMove n s p t
  /-- `link` writes the entry. -/
  | linked (ip dp : ℕ) (name : Path) (slots : List Dirent) (room : Bool) :
      s.place p = .parent (.linkNew ip) dp name → (s.node dp).type = .dir →
      dirlink (s.node dp).slots name ip room = some slots →
      Shifts s t p (.drop dp (.drop ip .finish)) →
      t.node = update s.node dp { s.node dp with slots := slots } →
      t.ref = s.ref → t.files = s.files → FsMove n s p t
  /-- `link` takes its count back. -/
  | undone (ip : ℕ) : s.place p = .undo ip → Shifts s t p (.drop ip .finish) →
      t.node = update s.node ip { s.node ip with nlink := (s.node ip).nlink - 1 } →
      t.ref = s.ref → t.files = s.files → FsMove n s p t
  /-- `iput` frees the inode. -/
  | freed (ip : ℕ) (next : FsPlace) : s.place p = .drop ip next → s.ref ip = 1 →
      s.valid ip → (s.node ip).nlink = 0 → Shifts s t p (.release ip next) →
      t.node = update s.node ip { s.node ip with type := .free, slots := [] } →
      t.ref = s.ref → t.files = s.files → FsMove n s p t
  /-- `iput` drops the reference. -/
  | dropped (ip : ℕ) (next : FsPlace) :
      s.place p = .drop ip next ∨ s.place p = .release ip next → Shifts s t p next →
      t.node = s.node → t.ref = update s.ref ip (s.ref ip - 1) → t.files = s.files →
      FsMove n s p t
  /-- `open` succeeds. -/
  | opened (call : FsCall) (ip : ℕ) : s.place p = .target call ip → callRefs call = [] →
      Shifts s t p .finish → t.node = s.node → t.ref = s.ref → t.files = ip :: s.files →
      FsMove n s p t
  /-- `chdir`. -/
  | chdir (ip old : ℕ) : s.place p = .target .chdir ip → s.cwd p = some old →
      t.place = update s.place p (.drop old .finish) → t.committed = s.committed →
      t.cwd = update s.cwd p (some ip) → t.node = s.node → t.ref = s.ref →
      t.files = s.files → FsMove n s p t
  /-- `end_op`; the log commits if all processes are idle. -/
  | ended : s.place p = .finish → t.place = update s.place p .idle →
      (t.committed = s.committed ∨ (t.committed = s.node ∧ ∀ q, t.place q = .idle)) →
      t.cwd = s.cwd → t.node = s.node → t.ref = s.ref → t.files = s.files → FsMove n s p t

section Inversion

variable {n : ℕ} {s t : FsTree} {p : Fin NPROC}

/-- What `ilock` does before the rest of a step. -/
theorem ilock_bind {i : ℕ} {rest : FsTree → Option FsTree}
    (stepped : (s.ilock p i).bind rest = some t) :
    rest { s with valid := update s.valid i true } = some t := by
  obtain ⟨s', locked, stepped⟩ := bind_eq_some_iff.mp stepped
  unfold ilock at locked
  obtain ⟨-, locked⟩ := Option.ite_none_left_eq_some.mp locked
  obtain ⟨-, locked⟩ := Option.ite_none_left_eq_some.mp locked
  cases locked
  exact stepped

/-- The lists of a place after a failed lookup. -/
theorem fails_retains {old : FsPlace} (call : FsCall) (ip : ℕ)
    (refs : placeRefs old = ip :: callRefs call) (keeps : placeKeeps old = ip :: callRefs call)
    (handles : placeHandles old = ip :: callRefs call)
    (pends : ∀ i, placePend i old = (callRefs call).count i) :
    Retains old (.drop ip call.fails) [] := by
  cases call with
  | linkNew other =>
    constructor
    · simp [refs, placeRefs, FsCall.fails, callRefs]
    · simp [keeps, placeKeeps, FsCall.fails, callRefs]
    · simp [handles, placeHandles, FsCall.fails, callRefs]
    · intro i
      rw [pends]
      simp [placePend, FsCall.fails, callRefs, count_singleton]
    · rfl
  | _ =>
    constructor
    · simp [refs, placeRefs, FsCall.fails, callRefs]
    · simp [keeps, placeKeeps, FsCall.fails, callRefs]
    · simp [placeHandles, FsCall.fails]
    · intro i
      rw [pends]
      rfl
    · rfl

/-- A round of `namex` that finds its name. -/
theorem next_retains (call : FsCall) (ip x : ℕ) (path rest : Path) :
    Retains (.walk call ip path) (.drop ip (.walk call x rest)) [x] := by
  constructor
  · intro i
    simp only [placeRefs, count_cons, count_nil]
    omega
  · intro i mem
    simp only [placeKeeps, mem_cons, not_mem_nil] at mem ⊢
    tauto
  · intro i mem
    simp only [placeHandles, mem_cons, not_mem_nil] at mem ⊢
    tauto
  · exact fun _ => rfl
  · rfl

/-- `create` finds its name. -/
theorem found_retains (new : NewNode) (dp x : ℕ) (name : Path) :
    Retains (.parent (.create new) dp name) (.drop dp (.target (.create new) x)) [x] := by
  constructor
  · intro i
    simp only [placeRefs, callRefs, count_cons, count_nil]
    omega
  · intro i mem
    simp only [placeKeeps, callRefs, mem_cons, not_mem_nil] at mem ⊢
    tauto
  · intro i mem
    simp only [placeHandles, callRefs, mem_cons, not_mem_nil] at mem ⊢
    tauto
  · exact fun _ => rfl
  · rfl

/-- `unlink` finds a directory that is not empty. -/
theorem full_retains (dp x : ℕ) (name : Path) :
    Retains (.parent .unlink dp name) (.drop x (.drop dp .finish)) [x] := by
  constructor
  · intro i
    simp only [placeRefs, callRefs, count_cons, count_nil]
    omega
  · intro i mem
    simp only [placeKeeps, callRefs, mem_cons, not_mem_nil] at mem ⊢
    tauto
  · exact fun i mem => absurd mem not_mem_nil
  · exact fun _ => rfl
  · rfl

theorem goto_move {new : FsPlace} {valid : ℕ → Bool} (retains : Retains (s.place p) new []) :
    FsMove n s p ({ s with valid := valid }.goto p new) :=
  .stay new ⟨rfl, rfl, rfl⟩ rfl rfl rfl retains

theorem walk_move
    (here : s.place p = .walk call ip path) (stepped : s.walk p call ip path = some t) :
    FsMove n s p t := by
  have failing : Retains (s.place p) (.drop ip call.fails) [] := by
    rw [here]
    exact fails_retains call ip rfl rfl rfl fun _ => rfl
  have kept : ∀ new, (new = .target call ip ∨ ∃ name, new = .parent call ip name) →
      Retains (s.place p) new [] := by
    rw [here]
    rintro _ (rfl | ⟨name, rfl⟩)
    · exact ⟨fun _ => rfl, fun _ => .inl, fun _ => .inl, fun _ => rfl, rfl⟩
    · exact ⟨fun _ => rfl, fun _ => .inl, fun _ => .inl, fun _ => rfl, rfl⟩
  unfold FsTree.walk at stepped
  split at stepped
  case h_1 =>
    split at stepped
    case isTrue =>
      cases stepped
      exact goto_move failing
    case isFalse =>
      cases stepped
      exact goto_move (kept _ (.inl rfl))
  case h_2 name rest _ =>
    replace stepped := ilock_bind stepped
    split at stepped
    case isTrue =>
      cases stepped
      exact goto_move failing
    case isFalse directory =>
      split at stepped
      case isTrue =>
        cases stepped
        exact goto_move (kept _ (.inr ⟨name, rfl⟩))
      case isFalse =>
        split at stepped
        case h_1 =>
          cases stepped
          exact goto_move failing
        case h_2 next found =>
          cases stepped
          obtain ⟨de, -, mem, used, rfl⟩ := dirlookup_some found
          refine .get _ next ⟨rfl, rfl, rfl⟩ rfl rfl rfl ?_
            (.inr (.inr ⟨ip, _, ⟨not_not.mp directory, mem, used⟩, rfl⟩))
          rw [here]
          exact next_retains call ip next path rest

theorem createIn_move (here : s.place p = .parent (.create new) dp name)
    (stepped : s.createIn p new dp name choice n = some t) : FsMove n s p t := by
  have failing : Retains (s.place p) (.drop dp .finish) [] := by
    rw [here]
    exact fails_retains (.create new) dp rfl rfl rfl fun _ => rfl
  replace stepped := ilock_bind stepped
  obtain ⟨directory, stepped⟩ := Option.ite_none_left_eq_some.mp stepped
  split at stepped
  case h_1 ip found =>
    cases stepped
    obtain ⟨de, -, mem, used, rfl⟩ := dirlookup_some found
    refine .get _ ip ⟨rfl, rfl, rfl⟩ rfl rfl rfl ?_
      (.inr (.inr ⟨dp, _, ⟨not_not.mp directory, mem, used⟩, rfl⟩))
    rw [here]
    exact found_retains new dp ip name
  case h_2 =>
    split at stepped
    case isTrue =>
      cases stepped
      exact goto_move failing
    case isFalse nonzero =>
      obtain ⟨free, stepped⟩ := Option.ite_none_right_eq_some.mp stepped
      cases stepped
      exact .alloc new dp name choice.inum here (not_not.mp directory)
        (Nat.pos_of_ne_zero nonzero) free.1 free.2 ⟨rfl, rfl, rfl⟩ rfl rfl rfl

theorem undo_move (here : s.place p = .undo ip) (stepped : s.undo p ip = some t) :
    FsMove n s p t := by
  replace stepped := ilock_bind stepped
  cases stepped
  exact .undone ip here ⟨rfl, rfl, rfl⟩ rfl rfl rfl

theorem linkIn_move (here : s.place p = .parent (.linkNew ip) dp name)
    (stepped : s.linkIn p ip dp name choice = some t) : FsMove n s p t := by
  replace stepped := ilock_bind stepped
  obtain ⟨directory, stepped⟩ := Option.ite_none_left_eq_some.mp stepped
  split at stepped
  case h_1 =>
    cases stepped
    refine goto_move ?_
    rw [here]
    exact fails_retains (.linkNew ip) dp rfl rfl rfl fun _ => rfl
  case h_2 slots linked =>
    cases stepped
    exact .linked ip dp name slots choice.room here (not_not.mp directory) linked
      ⟨rfl, rfl, rfl⟩ rfl rfl rfl

theorem iput_move {next : FsPlace} (here : s.place p = .drop ip next) :
    FsMove n s p (s.iput p ip next) := by
  unfold iput
  split
  case isTrue last => exact .freed ip next here last.1 last.2.1 last.2.2 ⟨rfl, rfl, rfl⟩ rfl rfl rfl
  case isFalse => exact .dropped ip next (.inl here) ⟨rfl, rfl, rfl⟩ rfl rfl rfl

theorem endOp_move (here : s.place p = .finish) : FsMove n s p (s.endOp p) := by
  unfold endOp
  dsimp only
  split
  case isTrue idle => exact .ended here rfl (.inr ⟨rfl, idle⟩) rfl rfl rfl rfl
  case isFalse => exact .ended here rfl (.inl rfl) rfl rfl rfl rfl

/-- A call gives back the inode that its path names. -/
theorem target_retains (here : s.place p = .target call ip)
    (none : callRefs call = []) : Retains (s.place p) (.drop ip .finish) [] := by
  have last : call.fails = .finish := by
    cases call with
    | linkNew => contradiction
    | _ => rfl
  rw [here, ← last]
  exact fails_retains call ip rfl rfl rfl fun _ => rfl

/-- `open` puts the inode or keeps it. -/
theorem openNode_cases (s : FsTree) (p : Fin NPROC) (ip : ℕ) (choice : FsChoice)
    (before : FsPlace → FsPlace) :
    s.openNode p ip choice before = s.goto p (before (.drop ip .finish)) ∨
      s.openNode p ip choice before =
        { s.goto p (before .finish) with files := ip :: s.files } := by
  unfold openNode
  split
  case isTrue => exact .inl rfl
  case isFalse => exact .inr rfl

/-- `open` with the inode that it has found. -/
theorem openNode_move
    (here : s.place p = .target call ip) (none : callRefs call = []) (valid : ℕ → Bool) :
    FsMove n s p (openNode { s with valid := valid } p ip choice id) := by
  rcases openNode_cases { s with valid := valid } p ip choice id with put | kept
  · rw [put]
    exact goto_move (target_retains here none)
  · rw [kept]
    exact .opened call ip here none ⟨rfl, rfl, rfl⟩ rfl rfl rfl

theorem namexStart_some {start : ℕ} (started : s.namexStart p path = some (start, t)) :
    (start = ROOTINO ∨ s.cwd p = some start) ∧ t.node = s.node ∧ t.place = s.place ∧ t.cwd = s.cwd ∧
      t.committed = s.committed ∧ t.files = s.files ∧
      t.ref = update s.ref start (s.ref start + 1) := by
  unfold namexStart at started
  split at started
  case isTrue =>
    cases started
    exact ⟨.inl rfl, rfl, rfl, rfl, rfl, rfl, rfl⟩
  case isFalse =>
    obtain ⟨c, current, same⟩ := map_eq_some_iff.mp started
    cases same
    exact ⟨.inr current, rfl, rfl, rfl, rfl, rfl, rfl⟩

theorem reach_move
    (here : s.place p = .target call ip) (stepped : s.reach p call ip choice = some t) :
    FsMove n s p t := by
  replace stepped := ilock_bind stepped
  cases call with
  | create new =>
    dsimp only at stepped
    split at stepped
    case isTrue =>
      cases stepped
      exact openNode_move here rfl _
    case isFalse =>
      cases stepped
      exact goto_move (target_retains here rfl)
  | linkOld path =>
    dsimp only at stepped
    split at stepped
    case isTrue =>
      cases stepped
      exact goto_move (target_retains here rfl)
    case isFalse other =>
      obtain ⟨⟨start, u⟩, started, stepped⟩ := bind_eq_some_iff.mp stepped
      cases stepped
      obtain ⟨known, nodes, places, cwds, saved, files, refs⟩ := namexStart_some started
      refine .counted ip path start here other ?_ ⟨?_, saved, cwds⟩ nodes refs files
      · rcases known with root | current
        · exact .inl root
        · exact .inr (.inl current)
      · rw [goto, places]
        rfl
  | opens writes =>
    dsimp only at stepped
    split at stepped
    case isTrue =>
      cases stepped
      exact goto_move (target_retains here rfl)
    case isFalse =>
      cases stepped
      exact openNode_move here rfl _
  | chdir =>
    dsimp only at stepped
    split at stepped
    case isTrue =>
      cases stepped
      exact goto_move (target_retains here rfl)
    case isFalse =>
      split at stepped
      case h_1 => contradiction
      case h_2 old current =>
        cases stepped
        exact .chdir ip old here current rfl rfl rfl rfl rfl rfl
  | unlink | linkNew => contradiction

/-- `unlink` with the directory and the name. -/
theorem unlink_move (here : s.place p = .parent .unlink dp name)
    (stepped : s.unlink p dp name = some t) : FsMove n s p t := by
  have failing : Retains (s.place p) (.drop dp .finish) [] := by
    rw [here]
    exact fails_retains .unlink dp rfl rfl rfl fun _ => rfl
  replace stepped := ilock_bind stepped
  split at stepped
  case isTrue =>
    cases stepped
    exact goto_move failing
  case isFalse other =>
    obtain ⟨directory, stepped⟩ := Option.ite_none_left_eq_some.mp stepped
    split at stepped
    case h_1 =>
      cases stepped
      exact goto_move failing
    case h_2 x found =>
      obtain ⟨apart, stepped⟩ := Option.ite_none_left_eq_some.mp stepped
      replace stepped := ilock_bind stepped
      obtain ⟨linked, stepped⟩ := Option.ite_none_left_eq_some.mp stepped
      split at stepped
      case isTrue full =>
        cases stepped
        obtain ⟨de, -, mem, used, rfl⟩ := dirlookup_some found
        refine .get _ x ⟨rfl, rfl, rfl⟩ rfl rfl rfl ?_
          (.inr (.inr ⟨dp, _, ⟨not_not.mp directory, mem, used⟩, rfl⟩))
        rw [here]
        exact full_retains dp x name
      case isFalse empty =>
        cases stepped
        refine .unlinked dp name x _ here (fun same => other (.inl same))
          (fun same => other (.inr same)) (not_not.mp directory) found apart ?_ ?_ rfl
          ⟨rfl, rfl, rfl⟩ rfl rfl rfl
        · exact not_lt.mp linked
        · intro isDir
          by_contra nonempty
          refine empty ⟨isDir, ?_⟩
          show (!isdirempty (s.node x).slots) = true
          rw [Bool.eq_false_of_not_eq_true nonempty]
          rfl

/-- `create` with the entries of the new inode. -/
theorem createLink_move {slots : List Dirent} (here : s.place p = .fill new dp name ip)
    (fills : Fills new dp ip (s.node ip).slots slots) (valid : ℕ → Bool) :
    FsMove n s p (createLink { s with valid := valid } p new dp name ip slots choice) := by
  unfold createLink
  dsimp only
  split
  case h_1 =>
    exact .failed new dp name ip _ _ _ here (.inr (.inl fills)) ⟨rfl, rfl, rfl⟩ rfl rfl rfl
  case h_2 entries linked =>
    split
    case h_1 =>
      rcases openNode_cases _ p ip choice (.drop dp) with put | kept
      · rw [put]
        exact .made .file dp name ip slots entries choice.room false _ here fills rfl linked
          ⟨rfl, rfl, rfl⟩ rfl rfl rfl
      · rw [kept]
        exact .made .file dp name ip slots entries choice.room true _ here fills rfl linked
          ⟨rfl, rfl, rfl⟩ rfl rfl rfl
    case h_2 =>
      exact .made new dp name ip slots entries choice.room false _ here fills rfl linked
        ⟨rfl, rfl, rfl⟩ rfl rfl rfl

/-- `create` with the new inode. -/
theorem fill_move (here : s.place p = .fill new dp name ip)
    (stepped : s.fill p new dp name ip choice = some t) : FsMove n s p t := by
  replace stepped := ilock_bind stepped
  split at stepped
  case isTrue isDir =>
    split at stepped
    case h_1 =>
      cases stepped
      exact .failed new dp name ip _ _ _ here (.inl rfl) ⟨rfl, rfl, rfl⟩ rfl rfl rfl
    case h_2 first dot =>
      split at stepped
      case h_1 dotdot =>
        cases stepped
        exact .failed new dp name ip _ _ _ here (.inr (.inr ⟨_, _, dot, dotdot⟩)) ⟨rfl, rfl, rfl⟩
          rfl rfl rfl
      case h_2 slots dotdot =>
        cases stepped
        exact createLink_move here (.dir isDir dot dotdot) _
  case isFalse other =>
    cases stepped
    exact createLink_move here (.other other) _

/-- Every step of a call is one of these. -/
theorem fs_advance_move (stepped : s.advance p n choice = some t) : FsMove n s p t := by
  unfold advance at stepped
  split at stepped
  case h_1 => contradiction
  case h_2 call ip path here => exact walk_move here stepped
  case h_3 new dp name here => exact createIn_move here stepped
  case h_4 dp name here => exact unlink_move here stepped
  case h_5 ip dp name here => exact linkIn_move here stepped
  case h_6 => contradiction
  case h_7 call ip here => exact reach_move here stepped
  case h_8 new dp name ip here =>
    cases stepped
    exact .hold new dp name ip here ⟨rfl, rfl, rfl⟩ rfl rfl rfl
  case h_9 new dp name ip here => exact fill_move here stepped
  case h_10 ip here => exact undo_move here stepped
  case h_11 ip next here =>
    cases stepped
    exact iput_move here
  case h_12 ip next here =>
    cases stepped
    exact .dropped ip next (.inr here) ⟨rfl, rfl, rfl⟩ rfl rfl rfl
  case h_13 here =>
    cases stepped
    exact endOp_move here

end Inversion

end Xv6Cos.Verif
