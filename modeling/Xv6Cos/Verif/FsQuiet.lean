import Xv6Cos.Verif.FsMove

/-!
# Steps that change no inode

A process gets or drops references, opens a file, changes its directory, starts or ends a call.
-/

namespace Xv6Cos.Verif

open Kernel Spec Function List Option FsTree

variable {n : ℕ} {s t : FsTree} {p : Fin NPROC} {new : FsPlace} {x ip i c : ℕ} {call : FsCall}
  {q : Fin NPROC}

namespace Shifts

section

variable (shifts : Shifts s t p new)

include shifts

theorem here : t.place p = new := by
  rw [shifts.place, update_self]

theorem others (q : Fin NPROC) (other : q ≠ p) : t.place q = s.place q ∧ t.cwd q = s.cwd q := by
  rw [shifts.place, shifts.cwd, update_of_ne other]
  exact ⟨rfl, rfl⟩

theorem keeps : procKeeps t p = placeKeeps new ++ (s.cwd p).toList := by
  rw [procKeeps, shifts.here, shifts.cwd]

theorem handles : procHandles t p = placeHandles new ++ (s.cwd p).toList := by
  rw [procHandles, shifts.here, shifts.cwd]

/-- The references of the process, if it has only moved. -/
theorem refs (i : ℕ) :
    (procRefs t p).count i + (placeRefs (s.place p)).count i =
      (procRefs s p).count i + (placeRefs new).count i := by
  rw [procRefs, procRefs, shifts.here, shifts.cwd, count_append, count_append]
  omega

/-- The pending links, if the process has only moved. -/
theorem pending (i : ℕ) :
    pending t i + placePend i (s.place p) = pending s i + placePend i new := by
  rw [← shifts.here]
  exact pending_change (fun q other => (shifts.others q other).1) i

end

end Shifts

theorem ref_get (ref : ℕ → ℕ) (x i : ℕ) :
    update ref x (ref x + 1) i = ref i + if x == i then 1 else 0 := by
  by_cases hit : i = x
  · subst hit
    simp
  · simp [update_of_ne hit, Ne.symm hit]

theorem ref_put {ref : ℕ → ℕ} (positive : 0 < ref x) (i : ℕ) :
    update ref x (ref x - 1) i + (if x == i then 1 else 0) = ref i := by
  by_cases hit : i = x
  · subst hit
    rw [update_self, beq_self_eq_true, if_pos rfl]
    omega
  · simp [update_of_ne hit, Ne.symm hit]

section

variable (inv : FsInv n s)

include inv

/-- An inode that is found by a lookup. -/
theorem FsInv.known (known : Known s p x) : ¬MadeElsewhere s p x ∧ Good s.node x := by
  rcases known with rfl | current | ⟨d, de, entry, rfl⟩
  · exact ⟨inv.visible_proper inv.disk.root,
      by rw [inv.disk.root.1]; exact nofun, fun _ => ⟨_, inv.disk.root⟩⟩
  · have mem : x ∈ (s.cwd p).toList := mem_toList.mpr current
    exact ⟨inv.visible (mem_append_right _ mem), inv.handled p x (mem_append_right _ mem)⟩
  · exact ⟨inv.visible_entry entry, inv.disk.targets d de entry⟩

/-- One process moves and changes inodes that nobody is making; none goes. -/
theorem FsInv.shift (shifts : Shifts s t p new) (disk : DiskInv n t.node (pending t))
    (refs : ∀ i, t.ref i + (placeRefs (s.place p)).count i + s.files.count i =
      s.ref i + (placeRefs new).count i + t.files.count i)
    (nodes : ∀ i, MadeElsewhere s p i → t.node i = s.node i)
    (types : ∀ i, (s.node i).type ≠ .free → (t.node i).type = (s.node i).type)
    (good : ∀ i, Good s.node i → Good t.node i)
    (keeps : ∀ i ∈ placeKeeps new,
      i ∈ placeKeeps (s.place p) ∨ (¬MadeElsewhere s p i ∧ (s.node i).type ≠ .free))
    (handles : ∀ i ∈ placeHandles new, i ∈ placeHandles (s.place p) ∨ Good s.node i)
    (pended : ∀ i, 0 < placePend i new → (s.node i).type ≠ .free ∧ (s.node i).type ≠ .dir)
    (making : placeMaking new = none) (files : ∀ i ∈ t.files, i ∈ s.files ∨ i ∈ procKeeps s p) :
    FsInv n t := by
  have kept : ∀ i ∈ procKeeps s p, ¬MadeElsewhere s p i ∧ (t.node i).type ≠ .free := by
    intro i mem
    have allocated := inv.alive p i mem
    rw [types i allocated]
    exact ⟨inv.visible mem, allocated⟩
  apply inv.frame p 0 disk
  · rw [shifts.saved]
    exact inv.saved
  · exact shifts.others
  · intro i
    have moved := shifts.refs i
    have change := refs i
    omega
  · exact nodes
  · exact fun i _ => types i
  · exact fun i _ => good i
  · exact fun q _ => inv.zero_unused q
  · intro i mem
    rw [shifts.keeps] at mem
    rcases mem_append.mp mem with here | current
    · rcases keeps i here with old | ⟨visible, allocated⟩
      · exact kept i (mem_append_left _ old)
      · rw [types i allocated]
        exact ⟨visible, allocated⟩
    · exact kept i (mem_append_right _ current)
  · intro i mem
    rw [shifts.handles] at mem
    apply good
    rcases mem_append.mp mem with here | current
    · rcases handles i here with old | found
      · exact inv.handled p i (mem_append_left _ old)
      · exact found
    · exact inv.handled p i (mem_append_right _ current)
  · intro i pends
    rw [shifts.here] at pends
    obtain ⟨allocated, other⟩ := pended i pends
    rw [types i allocated]
    exact ⟨allocated, other⟩
  · intro make dp ip found
    rw [shifts.here, making] at found
    contradiction
  · intro _
    rw [shifts.here]
    exact making
  · intro i mem
    rcases files i mem with old | here
    · exact .inl ⟨old, inv.file_ne_zero old⟩
    · exact .inr (kept i here)

/-- One process moves and no inode changes. -/
theorem FsInv.still (shifts : Shifts s t p new) (nodes : t.node = s.node)
    (refs : ∀ i, t.ref i + (placeRefs (s.place p)).count i + s.files.count i =
      s.ref i + (placeRefs new).count i + t.files.count i)
    (keeps : ∀ i ∈ placeKeeps new,
      i ∈ placeKeeps (s.place p) ∨ (¬MadeElsewhere s p i ∧ (s.node i).type ≠ .free))
    (handles : ∀ i ∈ placeHandles new, i ∈ placeHandles (s.place p) ∨ Good s.node i)
    (pends : ∀ i, placePend i new = placePend i (s.place p)) (making : placeMaking new = none)
    (files : ∀ i ∈ t.files, i ∈ s.files ∨ i ∈ procKeeps s p) : FsInv n t := by
  have same : pending t = pending s :=
    pending_same (fun q other => (shifts.others q other).1) fun i => by rw [shifts.here, pends i]
  refine inv.shift shifts ?_ refs (fun i _ => by rw [nodes]) (fun i _ => by rw [nodes])
    (fun i good => by rwa [nodes]) keeps handles
    (fun i positive => inv.pended p i (by rwa [← pends i])) making files
  rw [nodes, same]
  exact inv.disk

/-- A process goes on with its references and some more. -/
theorem FsInv.carry {extra : List ℕ} (shifts : Shifts s t p new)
    (nodes : t.node = s.node) (files : t.files = s.files)
    (refs : ∀ i, t.ref i = s.ref i + extra.count i) (retains : Retains (s.place p) new extra)
    (known : ∀ x ∈ extra, Known s p x) : FsInv n t := by
  refine inv.still shifts nodes (fun i => ?_) (fun i here => ?_) (fun i here => ?_) retains.pends
    retains.making fun i mem => .inl (files ▸ mem)
  · have more := retains.refs i
    rw [files, refs i]
    omega
  · refine (retains.keeps i here).imp_right fun found => ?_
    obtain ⟨visible, good⟩ := inv.known (known i found)
    exact ⟨visible, good.1⟩
  · exact (retains.handles i here).imp_right fun found => (inv.known (known i found)).2

/-- `iget` of the inode that a process is making. -/
theorem FsInv.hold {make : NewNode} {dp : ℕ} {name : Path}
    (here : s.place p = .alloc make dp name ip) (shifts : Shifts s t p (.fill make dp name ip))
    (nodes : t.node = s.node) (files : t.files = s.files)
    (refs : t.ref = update s.ref ip (s.ref ip + 1)) : FsInv n t := by
  apply inv.quiet p nodes
  · rw [shifts.saved]
    exact inv.saved
  · exact shifts.others
  · intro i
    have moved := shifts.refs i
    rw [here] at moved
    simp only [placeRefs, count_cons, count_nil] at moved
    rw [files, refs]
    have more := ref_get s.ref ip i
    omega
  · intro i mem
    rw [shifts.keeps] at mem
    rw [procKeeps, here]
    exact .inl mem
  · intro i mem
    rw [shifts.handles] at mem
    rw [procHandles, here]
    exact .inl mem
  · intro i
    rw [shifts.here, here]
    rfl
  · rw [shifts.here, here, shifts.cwd]
    exact .inr ⟨rfl, rfl, files, by rintro ⟨⟩⟩
  · intro i mem
    rw [files] at mem
    exact .inl mem

/-- A process has the references that it is about to put. -/
theorem FsInv.ref_pos (mem : i ∈ placeRefs (s.place p)) : 0 < s.ref i := by
  have here : 0 < (procRefs s p).count i := count_pos_iff.mpr (mem_append_left _ mem)
  have share : (procRefs s p).count i ≤ ∑ q, (procRefs s q).count i :=
    Finset.single_le_sum (f := fun q => (procRefs s q).count i) (fun _ _ => Nat.zero_le _)
      (Finset.mem_univ p)
  rw [inv.counted i, holders]
  omega

/-- `iput` drops a reference. -/
theorem FsInv.dropped
    (here : s.place p = .drop ip new ∨ s.place p = .release ip new) (shifts : Shifts s t p new)
    (nodes : t.node = s.node) (files : t.files = s.files)
    (refs : t.ref = update s.ref ip (s.ref ip - 1)) : FsInv n t := by
  have held : placeRefs (s.place p) = ip :: placeRefs new := by
    rcases here with here | here
    · rw [here]
      rfl
    · rw [here]
      rfl
  have making : placeMaking new = none := by
    have settled := inv.settled p
    rcases here with here | here
    · rw [here] at settled
      exact settled rfl
    · rw [here] at settled
      exact settled rfl
  have positive : 0 < s.ref ip := inv.ref_pos (by rw [held]; exact mem_cons_self)
  refine inv.still shifts nodes (fun i => ?_) (fun i later => .inl ?_) (fun i later => .inl ?_)
    (fun i => ?_) making fun i mem => .inl (files ▸ mem)
  · have less := ref_put positive i
    rw [held, count_cons, files, refs]
    omega
  · rcases here with here | here
    · rw [here]
      exact mem_cons_of_mem _ later
    · rw [here]
      exact later
  · rcases here with here | here
    · rw [here]
      exact later
    · rw [here]
      exact later
  · rcases here with here | here
    · rw [here]
      rfl
    · rw [here]
      rfl

theorem FsInv.openedFile (here : s.place p = .target call ip) (none : callRefs call = [])
    (shifts : Shifts s t p .finish) (nodes : t.node = s.node) (refs : t.ref = s.ref)
    (files : t.files = ip :: s.files) : FsInv n t := by
  refine inv.still shifts nodes (fun i => ?_) (fun i => nofun) (fun i => nofun) (fun i => ?_) rfl
    fun i mem => ?_
  · rw [here, files, refs, count_cons]
    simp only [placeRefs, none, count_cons, count_nil]
    omega
  · rw [here]
    simp [placePend, none]
  · rw [files] at mem
    rcases mem_cons.mp mem with rfl | old
    · refine .inr (mem_append_left _ ?_)
      rw [here]
      exact mem_cons_self
    · exact .inl old

theorem FsInv.chdir {old : ℕ} (here : s.place p = .target .chdir ip)
    (current : s.cwd p = some old) (place : t.place = update s.place p (.drop old .finish))
    (saved : t.committed = s.committed) (cwd : t.cwd = update s.cwd p (some ip))
    (nodes : t.node = s.node) (refs : t.ref = s.ref) (files : t.files = s.files) : FsInv n t := by
  have there : t.place p = .drop old .finish := by
    rw [place, update_self]
  have moved : t.cwd p = some ip := by
    rw [cwd, update_self]
  apply inv.quiet p nodes
  · rw [saved]
    exact inv.saved
  · intro q other
    rw [place, cwd, update_of_ne other, update_of_ne other]
    exact ⟨rfl, rfl⟩
  · intro i
    rw [files, refs, procRefs, procRefs, there, here, moved, current]
    simp only [placeRefs, callRefs, toList_some, count_append, count_cons, count_nil]
    omega
  · intro i mem
    rw [procKeeps, there, moved] at mem
    rw [procKeeps, here, current]
    simp only [placeKeeps, callRefs, toList_some, mem_append, mem_cons] at mem ⊢
    tauto
  · intro i mem
    rw [procHandles, there, moved] at mem
    rw [procHandles, here, current]
    simp only [placeHandles, callRefs, toList_some, mem_append, mem_cons] at mem ⊢
    tauto
  · intro i
    rw [there, here]
    rfl
  · rw [there]
    exact .inl rfl
  · intro i mem
    rw [files] at mem
    exact .inl mem

end

/-- No process has pending links between calls. -/
theorem pending_idle (idle : ∀ q, s.place q = .idle) : pending s = fun _ => 0 := by
  funext i
  exact Finset.sum_eq_zero fun q _ => by rw [idle q]; rfl

section

variable (inv : FsInv n s)

include inv

theorem FsInv.ended (here : s.place p = .finish) (place : t.place = update s.place p .idle)
    (saved : t.committed = s.committed ∨ (t.committed = s.node ∧ ∀ q, t.place q = .idle))
    (cwd : t.cwd = s.cwd) (nodes : t.node = s.node) (refs : t.ref = s.ref)
    (files : t.files = s.files) : FsInv n t := by
  have there : t.place p = .idle := by
    rw [place, update_self]
  have others : ∀ q, q ≠ p → t.place q = s.place q ∧ t.cwd q = s.cwd q := by
    intro q other
    rw [place, cwd, update_of_ne other]
    exact ⟨rfl, rfl⟩
  apply inv.quiet p nodes
  · rcases saved with kept | ⟨written, idle⟩
    · rw [kept]
      exact inv.saved
    · have same : pending s = fun _ => 0 := by
        funext i
        have change := pending_change (fun q other => (others q other).1) i
        rw [there, here, pending_idle idle] at change
        simpa [placePend] using change.symm
      rw [written, ← same]
      exact inv.disk
  · exact others
  · intro i
    rw [files, refs, procRefs, procRefs, there, here, cwd]
    rfl
  · intro i mem
    rw [procKeeps, there, cwd] at mem
    rw [procKeeps, here]
    exact .inl mem
  · intro i mem
    rw [procHandles, there, cwd] at mem
    rw [procHandles, here]
    exact .inl mem
  · intro i
    rw [there, here]
    rfl
  · rw [there]
    exact .inl rfl
  · intro i mem
    rw [files] at mem
    exact .inl mem

theorem FsInv.started {path : Path} {u : FsTree} (idle : s.place p = .idle) (starts : call.starts)
    (first : s.namexStart p path = some (ip, u)) : FsInv n (u.goto p (.walk call ip path)) := by
  obtain ⟨known, nodes, places, cwds, saved, files, refs⟩ := namexStart_some first
  have none : callRefs call = [] := by
    cases call with
    | linkNew => contradiction
    | _ => rfl
  have shifts : Shifts s (u.goto p (.walk call ip path)) p (.walk call ip path) := by
    refine ⟨?_, saved, cwds⟩
    rw [goto, places]
  apply inv.carry shifts nodes files
  · intro i
    rw [goto, refs, ref_get, count_singleton]
  · rw [idle]
    constructor
    · simp [placeRefs, none]
    · simp [placeKeeps, none]
    · simp [placeHandles, none]
    · simp [placePend, none]
    · rfl
  · intro x mem
    obtain rfl := mem_singleton.mp mem
    rcases known with root | current
    · exact .inl root
    · exact .inr (.inl current)

/-- Nobody is making the inode of an open file. -/
theorem FsInv.visible_file (mem : i ∈ s.files) : ¬MadeElsewhere s p i := by
  rintro ⟨q, other, new, dp, making⟩
  exact (inv.made q new dp i making).2.2.2 mem

/-- Nobody is making a current directory. -/
theorem FsInv.visible_cwd (current : s.cwd q = some c) : ¬MadeElsewhere s p c := by
  rintro ⟨r, other, new, dp, making⟩
  obtain ⟨-, hidden, apart, -⟩ := inv.made r new dp c making
  by_cases same : q = r
  · exact apart (same ▸ current)
  · exact hidden q same (mem_append_right _ (mem_toList.mpr current))

/-- The last descriptor of a file is closed. -/
theorem FsInv.closed (idle : s.place p = .idle) (mem : ip ∈ s.files)
    (shifts : Shifts s t p (.drop ip .finish)) (nodes : t.node = s.node) (refs : t.ref = s.ref)
    (files : t.files = s.files.erase ip) : FsInv n t := by
  refine inv.still shifts nodes (fun i => ?_) (fun i found => .inr ?_)
    (fun i => nofun) (fun i => ?_)
    rfl fun i here => .inl (mem_of_mem_erase (files ▸ here))
  · rw [idle, files, refs, List.count_erase]
    simp only [placeRefs, count_cons, count_nil]
    split
    case isTrue hit =>
      obtain rfl := beq_iff_eq.mp hit
      have positive := count_pos_iff.mpr mem
      omega
    case isFalse => omega
  · obtain rfl := mem_singleton.mp found
    exact ⟨inv.visible_file mem, inv.opened i mem⟩
  · rw [idle]
    rfl

/-- `fork` gives the child the current directory of its parent. -/
theorem FsInv.forked {child : Fin NPROC} (current : s.cwd p = some c)
    (idle : s.place child = .idle) (unused : s.cwd child = none) (places : t.place = s.place)
    (saved : t.committed = s.committed) (cwd : t.cwd = update s.cwd child (some c))
    (nodes : t.node = s.node) (refs : t.ref = update s.ref c (s.ref c + 1))
    (files : t.files = s.files) : FsInv n t := by
  have given : t.cwd child = some c := by
    rw [cwd, update_self]
  have mem : c ∈ (s.cwd p).toList := mem_toList.mpr current
  apply inv.quiet child nodes
  · rw [saved]
    exact inv.saved
  · intro q other
    rw [places, cwd, update_of_ne other]
    exact ⟨rfl, rfl⟩
  · intro i
    rw [files, refs, ref_get, procRefs, procRefs, places, idle, given, unused]
    simp only [placeRefs, toList_none, toList_some, nil_append, count_nil, count_cons]
    omega
  · intro i here
    rw [procKeeps, places, idle, given] at here
    obtain rfl := mem_singleton.mp here
    exact .inr ⟨inv.visible_cwd current, inv.alive p i (mem_append_right _ mem)⟩
  · intro i here
    rw [procHandles, places, idle, given] at here
    obtain rfl := mem_singleton.mp here
    exact .inr (inv.handled p i (mem_append_right _ mem))
  · intro i
    rw [places]
  · rw [places, idle]
    exact .inl rfl
  · intro i here
    rw [files] at here
    exact .inl here

/-- `exit` puts the current directory. -/
theorem FsInv.exited (current : s.cwd p = some c)
    (idle : s.place p = .idle) (place : t.place = update s.place p (.drop c .finish))
    (saved : t.committed = s.committed) (cwd : t.cwd = update s.cwd p none)
    (nodes : t.node = s.node) (refs : t.ref = s.ref) (files : t.files = s.files) : FsInv n t := by
  have there : t.place p = .drop c .finish := by
    rw [place, update_self]
  have gone : t.cwd p = none := by
    rw [cwd, update_self]
  apply inv.quiet p nodes
  · rw [saved]
    exact inv.saved
  · intro q other
    rw [place, cwd, update_of_ne other, update_of_ne other]
    exact ⟨rfl, rfl⟩
  · intro i
    rw [files, refs, procRefs, procRefs, there, idle, gone, current]
    rfl
  · intro i mem
    rw [procKeeps, there, gone] at mem
    rw [procKeeps, idle, current]
    exact .inl mem
  · intro i mem
    rw [procHandles, there, gone] at mem
    contradiction
  · intro i
    rw [there, idle]
    rfl
  · rw [there]
    exact .inl rfl
  · intro i mem
    rw [files] at mem
    exact .inl mem

end

theorem boot_cwd_first (nodes : Nodes) :
    (boot nodes).cwd initProc = some ROOTINO := by
  simp [FsTree.boot]

theorem boot_cwd_other (nodes : Nodes) (other : q ≠ initProc) :
    (boot nodes).cwd q = none := by
  simp [FsTree.boot, other]

/-- The first process on an image that is in order. -/
theorem fs_boot_inv {nodes : Nodes} (disk : DiskInv n nodes fun _ => 0) :
    FsInv n (.boot nodes) := by
  have idle : ∀ q, (boot nodes).place q = .idle := fun _ => rfl
  have current : ∀ q, ∀ i ∈ ((boot nodes).cwd q).toList, i = ROOTINO := by
    intro q i mem
    have found := mem_toList.mp mem
    by_cases first : q = initProc
    · rw [first, boot_cwd_first] at found
      exact (Option.some.inj found).symm
    · rw [boot_cwd_other nodes first] at found
      contradiction
  have root : Good nodes ROOTINO :=
    ⟨by rw [disk.root.1]; exact nofun, fun _ => ⟨_, disk.root⟩⟩
  constructor
  · rw [pending_idle idle]
    exact disk
  · exact disk
  · intro i
    have others : ∀ q, q ≠ initProc → (procRefs (.boot nodes) q).count i = 0 := by
      intro q other
      rw [procRefs, boot_cwd_other nodes other]
      rfl
    have first : (procRefs (.boot nodes) initProc).count i =
        if ROOTINO == i then 1 else 0 := by
      rw [procRefs, boot_cwd_first]
      exact count_singleton
    rw [holders, Finset.sum_eq_single initProc (fun q _ => others q)
      (fun absent => absurd (Finset.mem_univ _) absent), first]
    have counted := ref_get (fun _ => 0) ROOTINO i
    simpa [FsTree.boot] using counted
  · intro q i mem
    rw [procKeeps, idle] at mem
    rw [current q i mem]
    exact root.1
  · exact fun i mem => absurd mem not_mem_nil
  · intro q i mem
    rw [procHandles, idle] at mem
    rw [current q i mem]
    exact root
  · intro q i pends
    exact absurd pends (lt_irrefl 0)
  · intro q new dp ip making
    contradiction
  · exact fun q _ => rfl

end Xv6Cos.Verif
