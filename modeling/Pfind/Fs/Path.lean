import Pfind.Fs.Basic

/-!
# Paths made of a root and names

`joinPath root names` is the root followed by the names with one separator between two parts,
except that a root ending in a separator gets none behind it.

* `PathBuf.push_name` : pushing a name appends it, with a separator if the buffer needs one.
* `joinPath_push` : pushing a name onto a joined path joins one name more.
* `joinPath_injective` : **the names can be read back from the path**.
-/

namespace Pfind

namespace Fs

/-- A name of a directory entry: it is not empty and has no separator in it. -/
def IsName (name : Bytes) : Prop := name ≠ [] ∧ byte '/' ∉ name

/-- The names in every directory are names, and distinct. -/
structure FileSystem.WellNamed (fs : FileSystem) : Prop where
  isName : ∀ {dir e}, some e ∈ fs.listing dir → IsName e.fileName
  distinct : ∀ dir, (fs.listing dir).Pairwise fun e e' =>
    ∀ x ∈ e, ∀ y ∈ e', x.fileName ≠ y.fileName

/-- The separator behind `root`, if it needs one. -/
def sepAfter (root : PathBuf) : Bytes := if needsSep root then [byte '/'] else []

/-- The root followed by the names. -/
def joinPath (root : PathBuf) : List Bytes → PathBuf
  | [] => root
  | name :: names => root ++ sepAfter root ++ [byte '/'].intercalate (name :: names)

variable {root : PathBuf} {name : Bytes} {names names' : List Bytes}

theorem joinPath_of_ne_nil (h : names ≠ []) :
    joinPath root names = root ++ sepAfter root ++ [byte '/'].intercalate names := by
  cases names with
  | nil => exact absurd rfl h
  | cons => rfl

theorem PathBuf.push_name (p : PathBuf) (h : IsName name) :
    p.push name = p ++ sepAfter p ++ name := by
  have hhead : name.head? ≠ some (byte '/') := fun he => h.2 (List.mem_of_mem_head? he)
  unfold push sepAfter
  rw [if_neg hhead]
  split_ifs <;> simp

theorem getLast?_intercalate (hn : ∀ x ∈ names, IsName x) (hne : names ≠ []) :
    ∃ c, ([byte '/'].intercalate names).getLast? = some c ∧ c ≠ byte '/' := by
  induction names with
  | nil => exact absurd rfl hne
  | cons x xs ih =>
    cases xs with
    | nil =>
      obtain ⟨hx, hsep⟩ := hn x (by simp)
      refine ⟨x.getLast hx, ?_, fun he => hsep (he ▸ List.getLast_mem hx)⟩
      rw [List.intercalate_singleton, List.getLast?_eq_some_getLast hx]
    | cons y ys =>
      obtain ⟨c, hc, hcs⟩ := ih (fun z hz => hn z (List.mem_cons_of_mem _ hz)) (by simp)
      refine ⟨c, ?_, hcs⟩
      rw [List.intercalate_cons_cons, List.getLast?_append, hc]
      rfl

theorem sepAfter_joinPath (hn : ∀ x ∈ names, IsName x) (hne : names ≠ []) :
    sepAfter (joinPath root names) = [byte '/'] := by
  obtain ⟨c, hc, hcs⟩ := getLast?_intercalate hn hne
  have hlast : (joinPath root names).getLast? = some c := by
    rw [joinPath_of_ne_nil hne, List.getLast?_append, hc]
    rfl
  have hnil : joinPath root names ≠ [] := fun he => by simp [he] at hlast
  simp [sepAfter, needsSep, hlast, hcs, List.isEmpty_eq_false_iff.2 hnil]

theorem intercalate_concat (hne : names ≠ []) :
    [byte '/'].intercalate (names ++ [name]) =
      [byte '/'].intercalate names ++ [byte '/'] ++ name := by
  induction names with
  | nil => exact absurd rfl hne
  | cons x xs ih =>
    cases xs with
    | nil => simp [List.intercalate_cons_cons]
    | cons y ys =>
      have hys : (y :: ys : List Bytes) ≠ [] := List.cons_ne_nil y ys
      have hys' : y :: ys ++ [name] ≠ [] := List.append_ne_nil_of_left_ne_nil hys _
      rw [List.cons_append, List.intercalate_cons_of_ne_nil hys', ih hys,
        List.intercalate_cons_of_ne_nil hys]
      simp only [List.append_assoc]

/-- **Pushing a name joins one name more.** -/
theorem joinPath_push (hn : ∀ x ∈ names, IsName x) (h : IsName name) :
    (joinPath root names).push name = joinPath root (names ++ [name]) := by
  rw [PathBuf.push_name _ h]
  by_cases hne : names = []
  · subst hne
    simp [joinPath]
  · rw [sepAfter_joinPath hn hne, joinPath_of_ne_nil hne, joinPath_of_ne_nil (by simp),
      intercalate_concat hne]
    simp

/-- **The names can be read back from the path.** -/
theorem joinPath_injective (hn : ∀ x ∈ names, IsName x) (hn' : ∀ x ∈ names', IsName x)
    (h : joinPath root names = joinPath root names') : names = names' := by
  have hlong : ∀ {ns : List Bytes}, (∀ x ∈ ns, IsName x) → ns ≠ [] → joinPath root ns ≠ root := by
    intro ns hns hne he
    obtain ⟨c, hc, -⟩ := getLast?_intercalate hns hne
    rw [joinPath_of_ne_nil hne, List.append_assoc, List.append_right_eq_self] at he
    rw [(List.append_eq_nil_iff.1 he).2] at hc
    cases hc
  by_cases hne : names = []
  · subst hne
    by_contra hne'
    exact hlong hn' (Ne.symm hne') h.symm
  by_cases hne' : names' = []
  · subst hne'
    exact absurd h (hlong hn hne)
  · rw [joinPath_of_ne_nil hne, joinPath_of_ne_nil hne'] at h
    have hj := List.append_cancel_left h
    rw [← List.splitOn_intercalate (byte '/') (fun x hx => (hn x hx).2) hne, hj,
      List.splitOn_intercalate (byte '/') (fun x hx => (hn' x hx).2) hne']

end Fs

end Pfind
