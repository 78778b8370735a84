import Pfind.Fs.Path

/-!
# Directories on a disk, and symbolic links

Where the answers of a `FileSystem` come from.  The directories of a disk make up a tree of inodes;
a symbolic link may lead anywhere, also to a directory that it is in, and then there is no end of
paths.

* `Disk.resolve` : the directory entries that a path leads through; symbolic links are followed.
* `Disk.inodeAt_push` : the path of a subdirectory leads to it.
* `FileSystem.ofDisk` : **a disk is a `FileSystem`**: with the symbolic links left out of the
  subdirectories it has finite height.
* `FileSystem.ofDisk_wellNamed` : its names are as the results on paths need them.
-/

namespace Pfind

namespace Fs

/-! ### Disks -/

/-- What an inode is. -/
inductive Node (ι : Type*) where
  | file
  | symlink (target : PathBuf)
  | other
  | dir (entries : List (Bytes × ι))

/-- The type of an inode. -/
def Node.fileType {ι : Type*} : Node ι → FileType
  | .file => .file
  | .symlink _ => .symlink
  | .other => .other
  | .dir _ => .dir

/-- The inodes of a disk. -/
structure Disk (ι : Type*) where
  /-- What each inode is. -/
  node : ι → Node ι
  /-- The length in its metadata. -/
  len : ι → UInt64
  /-- The root directory. -/
  root : ι
  /-- How many symbolic links are followed before a path is given up. -/
  maxLinks : ℕ
  /-- A bound on the number of levels below a directory. -/
  height : ι → ℕ
  /-- A subdirectory has fewer levels below it. -/
  height_lt : ∀ {i es name j}, node i = .dir es → (name, j) ∈ es → (node j).fileType = .dir →
    height j < height i
  /-- Names are names, and none of those that every directory has. -/
  isName : ∀ {i es name j}, node i = .dir es → (name, j) ∈ es →
    IsName name ∧ name ≠ [byte '.'] ∧ name ≠ [byte '.', byte '.']
  /-- The names in a directory are distinct. -/
  distinct : ∀ {i es}, node i = .dir es → (es.map Prod.fst).Nodup
  /-- A directory has one parent, and one name in it. -/
  parent : ∀ {i i' es es' name name' j}, node i = .dir es → node i' = .dir es' →
    (name, j) ∈ es → (name', j) ∈ es' → (node j).fileType = .dir → i = i' ∧ name = name'

namespace Disk

variable {ι : Type*} (D : Disk ι)

/-- The entries of a directory. -/
def entries (i : ι) : List (Bytes × ι) :=
  match D.node i with
  | .dir es => es
  | _ => []

/-- The subdirectories of a directory with the names to `keep`. -/
def subdirs (keep : Bytes → Bool) (i : ι) : List ι :=
  ((D.entries i).filter fun e => (D.node e.2).fileType = .dir ∧ keep e.1 = true).map Prod.snd

variable {D} {keep : Bytes → Bool} {i j : ι} {es : List (Bytes × ι)} {name : Bytes}

theorem node_of_mem_entries (h : (name, j) ∈ D.entries i) : D.node i = .dir (D.entries i) := by
  unfold entries at h ⊢
  cases hi : D.node i with
  | dir es => rfl
  | file | symlink | other => rw [hi] at h; cases h

theorem entries_nodup (i : ι) : ((D.entries i).map Prod.fst).Nodup := by
  unfold entries
  cases hi : D.node i with
  | dir es => exact D.distinct hi
  | file | symlink | other => exact List.nodup_nil

theorem mem_subdirs : j ∈ D.subdirs keep i ↔
    ∃ name, (name, j) ∈ D.entries i ∧ (D.node j).fileType = .dir ∧ keep name = true := by
  simp [subdirs]

variable (D) in
/-- The tree of directories with the names to `keep`. -/
def tree (keep : Bytes → Bool) : Unfolding ι where
  children := D.subdirs keep
  height := D.height
  height_lt h := by
    obtain ⟨name, hj, hd, -⟩ := mem_subdirs.1 h
    exact D.height_lt (node_of_mem_entries hj) hj hd

/-- **The tree of directories has no directory twice.** -/
theorem tree_nodup (keep : Bytes → Bool) (i : ι) : ((D.tree keep).preorder i).Nodup := by
  refine Unfolding.nodup_preorder (U := D.tree keep) ?_ (fun i => ?_) i
  · intro i i' j hj hj'
    obtain ⟨name, hmem, hd, -⟩ := mem_subdirs.1 hj
    obtain ⟨name', hmem', -⟩ := mem_subdirs.1 hj'
    exact (D.parent (node_of_mem_entries hmem) (node_of_mem_entries hmem') hmem hmem' hd).1
  · refine (((entries_nodup i).of_map Prod.fst).filter _).map_on ?_
    rintro ⟨name, j⟩ hmem ⟨name', j'⟩ hmem' (rfl : j = j')
    rw [List.mem_filter, decide_eq_true_eq] at hmem hmem'
    have hi := node_of_mem_entries hmem.1
    exact Prod.ext (D.parent hi hi hmem.1 hmem'.1 hmem.2.1).2 rfl

/-! ### Path resolution -/

/-- The names in a path. -/
def components (path : PathBuf) : List Bytes := (path.splitOn (byte '/')).filter fun c => c ≠ []

/-- A path leads from the root directory if it begins with a separator, and otherwise from the
directory that one is in, which comes with those above it. -/
def start (D : Disk ι) (path : PathBuf) (cwd : List ι) : List ι :=
  if path.head? = some (byte '/') then [D.root] else cwd

/-- The directory above, or the root directory itself. -/
def up (i : ι) : List ι → List ι
  | [] => [i]
  | j :: above => j :: above

/-- Follow the names of a path from a directory, which comes with those above it; `follow` goes on
behind a symbolic link. -/
def walk (D : Disk ι) (follow : List ι → List Bytes → Option (List ι)) :
    List ι → List Bytes → Option (List ι)
  | pos, [] => some pos
  | [], _ :: _ => none
  | i :: above, c :: cs =>
    match D.node i with
    | .dir es =>
      if c = [byte '.'] then D.walk follow (i :: above) cs
      else if c = [byte '.', byte '.'] then D.walk follow (up i above) cs
      else match es.lookup c with
        | none => none
        | some j => match D.node j with
          | .symlink target => follow (D.start target (i :: above)) (components target ++ cs)
          | _ => D.walk follow (j :: i :: above) cs
    | _ => none

/-- Path resolution with a number of symbolic links. -/
def resolveFrom (D : Disk ι) : ℕ → List ι → List Bytes → Option (List ι)
  | 0 => D.walk fun _ _ => none
  | k + 1 => D.walk (D.resolveFrom k)

/-- What a path leads to, with the directories above it. -/
def resolve (D : Disk ι) (cwd : List ι) (path : PathBuf) : Option (List ι) :=
  if path = [] then none else D.resolveFrom D.maxLinks (D.start path cwd) (components path)

/-- The inode that a path leads to. -/
def inodeAt (D : Disk ι) (cwd : List ι) (path : PathBuf) : Option ι :=
  (D.resolve cwd path).bind List.head?

theorem components_push {p : PathBuf} (hp : p ≠ []) (h : IsName name) :
    components (p.push name) = components p ++ [name] := by
  have hone : name.splitOn (byte '/') = [name] :=
    List.splitOn_eq_singleton h.2
  have hname : [name].filter (fun c => c ≠ []) = [name] := by simp [h.1]
  rw [PathBuf.push_name p h, components, components, sepAfter]
  split_ifs with hsep
  · rw [List.append_assoc, List.singleton_append, List.splitOn_append_cons_self, hone,
      List.filter_append, hname]
  · -- the path ends in a separator, behind which there is an empty part
    obtain ⟨q, rfl⟩ : ∃ q, p = q ++ [byte '/'] := by
      have hlast : p.getLast? = some (byte '/') := by
        simpa [needsSep, List.isEmpty_eq_false_iff.2 hp] using hsep
      exact (List.getLast?_eq_some_iff).1 hlast
    rw [List.append_nil, List.append_assoc, List.singleton_append, List.splitOn_append_cons_self,
      List.splitOn_append_cons_self, hone, List.filter_append, List.filter_append, hname]
    simp

theorem walk_append {follow : List ι → List Bytes → Option (List ι)} {ds : List Bytes}
    (hfollow : ∀ {pos cs pos'}, follow pos cs = some pos' →
      ∃ k, follow pos (cs ++ ds) = D.resolveFrom k pos' ds)
    (hwalk : ∃ k, D.walk follow = D.resolveFrom k) {pos pos' : List ι} {cs : List Bytes}
    (h : D.walk follow pos cs = some pos') :
    ∃ k, D.walk follow pos (cs ++ ds) = D.resolveFrom k pos' ds := by
  induction cs generalizing pos with
  | nil =>
    obtain ⟨k, hk⟩ := hwalk
    cases pos <;> cases h <;> exact ⟨k, congrFun (congrFun hk _) ds⟩
  | cons c cs ih =>
    cases pos with
    | nil => cases h
    | cons i above =>
      rw [List.cons_append]
      unfold walk at h ⊢
      split at h
      · split_ifs at h ⊢ with hdot hup
        · exact ih h
        · exact ih h
        · split at h
          · cases h
          · split at h
            · rw [← List.append_assoc]
              exact hfollow h
            · exact ih h
      · cases h

theorem resolveFrom_append {k : ℕ} {pos pos' : List ι} {cs : List Bytes} (ds : List Bytes)
    (h : D.resolveFrom k pos cs = some pos') :
    ∃ k', D.resolveFrom k pos (cs ++ ds) = D.resolveFrom k' pos' ds := by
  induction k generalizing pos pos' cs with
  | zero => exact walk_append (by simp) ⟨0, rfl⟩ h
  | succ k ih => exact walk_append ih ⟨k + 1, rfl⟩ h

theorem lookup_of_mem (hi : D.node i = .dir es) (hj : (name, j) ∈ es) :
    es.lookup name = some j := by
  have hnodup := D.distinct hi
  obtain ⟨before, behind, rfl⟩ := List.append_of_mem hj
  refine List.lookup_eq_some_iff.2 ⟨before, behind, rfl, fun e he => ?_⟩
  rw [List.map_append, List.map_cons, List.nodup_append] at hnodup
  exact bne_iff_ne.2 (hnodup.2.2 e.1 (List.mem_map_of_mem he) name (by simp)).symm

/-- **The path of a subdirectory leads to it.** -/
theorem inodeAt_push {cwd : List ι} {path : PathBuf} (h : D.inodeAt cwd path = some i)
    (hi : D.node i = .dir es) (hj : (name, j) ∈ es) (hd : (D.node j).fileType = .dir) :
    D.inodeAt cwd (path.push name) = some j := by
  obtain ⟨pos, hpos, hhead⟩ := Option.bind_eq_some_iff.1 h
  obtain ⟨above, rfl⟩ := List.head?_eq_some_iff.1 hhead
  obtain ⟨hname, hdot, hup⟩ := D.isName hi hj
  unfold resolve at hpos
  split_ifs at hpos with hnil
  obtain ⟨k, hk⟩ := resolveFrom_append [name] hpos
  have hstep : D.resolveFrom k (i :: above) [name] = some (j :: i :: above) := by
    cases k <;> simp only [resolveFrom, walk, hi, hdot, hup, lookup_of_mem hi hj, if_false] <;>
      cases hnode : D.node j <;> simp_all [Node.fileType]
  have hstart : D.start (path.push name) cwd = D.start path cwd := by
    rw [PathBuf.push_name path hname, start, start, List.append_assoc,
      List.head?_append_of_ne_nil _ hnil]
  have hpush : path.push name ≠ [] := by
    rw [PathBuf.push_name path hname]
    simp [hnil]
  rw [inodeAt, resolve, if_neg hpush, components_push hnil hname, hstart, hk, hstep]
  rfl

/-! ### The file system on a disk -/

/-- What `read_dir` yields of an entry: its type is that of the inode itself. -/
def entry (D : Disk ι) (e : Bytes × ι) : DirEntry :=
  ⟨e.1, some (D.node e.2).fileType, some (D.len e.2)⟩

/-- `read_dir` of a path. -/
def readDir (D : Disk ι) (cwd : List ι) (path : PathBuf) : Option (List (Option DirEntry)) :=
  (D.inodeAt cwd path).bind fun i =>
    match D.node i with
    | .dir es => some (es.map fun e => some (D.entry e))
    | _ => none

theorem readDir_eq {cwd : List ι} {path : PathBuf} {listing : List (Option DirEntry)}
    (h : D.readDir cwd path = some listing) : ∃ i, D.inodeAt cwd path = some i ∧
      listing = (D.entries i).map fun e => some (D.entry e) := by
  obtain ⟨i, hi, hl⟩ := Option.bind_eq_some_iff.1 h
  refine ⟨i, hi, ?_⟩
  unfold entries
  cases hn : D.node i with
  | dir es => rw [hn] at hl; exact (Option.some.inj hl).symm
  | file | symlink | other => rw [hn] at hl; cases hl

end Disk

/-- The file system that a process in the directory `cwd` sees. -/
def FileSystem.ofDisk {ι : Type*} (D : Disk ι) (cwd : List ι) : FileSystem where
  readDir := D.readDir cwd
  metadata path := (D.inodeAt cwd path).map D.len
  height path := ((D.inodeAt cwd path).map D.height).getD 0
  height_lt {dir listing e} hr he hd := by
    obtain ⟨i, hi, rfl⟩ := Disk.readDir_eq hr
    obtain ⟨⟨name, j⟩, hj, hej⟩ := List.mem_map.1 he
    obtain rfl := Option.some.inj hej
    have hdir : (D.node j).fileType = .dir := Option.some.inj hd
    have hnode := Disk.node_of_mem_entries hj
    rw [show (D.entry (name, j)).fileName = name from rfl, Disk.inodeAt_push hi hnode hj hdir, hi]
    exact D.height_lt hnode hj hdir

variable {ι : Type*} {D : Disk ι} {cwd : List ι} {path : PathBuf} {i : ι}

theorem FileSystem.listing_ofDisk : (FileSystem.ofDisk D cwd).listing path =
    ((D.inodeAt cwd path).elim [] D.entries).map fun e => some (D.entry e) := by
  show (D.readDir cwd path).getD [] = _
  unfold Disk.readDir
  cases D.inodeAt cwd path with
  | none => rfl
  | some i =>
    rw [Option.bind_some, Option.elim_some, Disk.entries]
    cases D.node i <;> rfl

theorem FileSystem.ofDisk_wellNamed (D : Disk ι) (cwd : List ι) :
    (FileSystem.ofDisk D cwd).WellNamed where
  isName {dir e} he := by
    rw [listing_ofDisk] at he
    obtain ⟨⟨name, j⟩, hj, hej⟩ := List.mem_map.1 he
    obtain rfl := Option.some.inj hej
    cases hi : D.inodeAt cwd dir with
    | none => rw [hi] at hj; cases hj
    | some i =>
      rw [hi, Option.elim_some] at hj
      exact (D.isName (Disk.node_of_mem_entries hj) hj).1
  distinct dir := by
    rw [listing_ofDisk, List.pairwise_map]
    cases D.inodeAt cwd dir with
    | none => exact .nil
    | some i =>
      refine (List.pairwise_map.1 (Disk.entries_nodup i)).imp fun {a b} hne x hx y hy => ?_
      cases hx
      cases hy
      exact hne

end Fs

end Pfind
