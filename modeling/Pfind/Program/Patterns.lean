import Pfind.Process.Basic
import Pfind.Program.Narrowing
import Pfind.Walker.Skip

/-!
# Two ways to ask for an extension

`-e x` goes through `name_matches_extension`, and `-n '*.x'` through `glob_match`.

* `extension_of_globMatch` : a name that matches the pattern has the extension.
* `globMatch_of_extension` : the converse, for a name in lowercase without a star.
* `pattern_agrees` : **what a search for the pattern reports is part of what one for the extension
  does**, and all of it if the names are like this.
-/

namespace Pfind

open Fs Text

/-- An extension in lowercase and without wildcards. -/
def IsExtension (x : Bytes) : Prop :=
  byte '?' ∉ x ∧ byte '*' ∉ x ∧ x.map toAsciiLowercase = x

instance (x : Bytes) : Decidable (IsExtension x) := inferInstanceAs (Decidable (_ ∧ _ ∧ _))

variable {x : String} {name : Bytes}

/-! ### Names -/

theorem asBytes_suffix (x : String) : asBytes ("*." ++ x) = byte '*' :: byte '.' :: asBytes x := by
  rw [asBytes, String.toList_append, List.flatMap_append]
  rfl

theorem globSpec_suffix_iff (hx : IsExtension (asBytes x)) :
    GlobSpec (asBytes ("*." ++ x)) name ↔ byte '.' :: asBytes x <:+ name := by
  have hdot : byte '?' ≠ byte '.' ∧ byte '*' ≠ byte '.' := by decide
  rw [asBytes_suffix]
  exact globSpec_star_iff (List.not_mem_cons_of_ne_of_not_mem hdot.1 hx.1)
    (List.not_mem_cons_of_ne_of_not_mem hdot.2 hx.2.1)

theorem extension_of_globMatch (hx : IsExtension (asBytes x))
    (h : globMatch (asBytes ("*." ++ x)) name = true) :
    nameMatchesExtension name (asBytes x) = true := by
  obtain ⟨stem, rfl⟩ := (globSpec_suffix_iff hx).1 ((globMatch_iff _ _).1 h).free
  exact nameMatchesExtension_iff.2 ⟨stem, asBytes x, rfl, hx.2.2⟩

theorem globMatch_of_extension (hx : IsExtension (asBytes x)) (hstar : byte '*' ∉ name)
    (hlower : name.map toAsciiLowercase = name)
    (h : nameMatchesExtension name (asBytes x) = true) :
    globMatch (asBytes ("*." ++ x)) name = true := by
  rw [nameMatchesExtension_iff_suffix, hlower] at h
  exact (globMatch_of_not_mem hstar).2 ((globSpec_suffix_iff hx).2 h)

namespace Scheduler

/-- The search with `-e x`. -/
def Search.byExtension (S : Search) (x : String) : Search :=
  S.withFilter { S.filter with extensions := [x], namePattern := none }

/-- The search with `-n '*.x'`. -/
def Search.bySuffix (S : Search) (x : String) : Search :=
  S.withFilter { S.filter with extensions := [], namePattern := some ("*." ++ x) }

variable {S : Search} {e : DirEntry}

/-! ### Entries -/

theorem nameMatches_byExtension : nameMatches name (S.byExtension x).filter.extensions
    (S.byExtension x).filter.namePattern = nameMatchesExtension name (asBytes x) := by
  simp [Search.byExtension, Search.withFilter, nameMatches, anyExtensionMatches]

theorem nameMatches_bySuffix : nameMatches name (S.bySuffix x).filter.extensions
    (S.bySuffix x).filter.namePattern = globMatch (asBytes ("*." ++ x)) name := by
  simp [Search.bySuffix, Search.withFilter, nameMatches]

theorem accepts_byExtension (hx : IsExtension (asBytes x)) (h : (S.bySuffix x).Accepts e) :
    (S.byExtension x).Accepts e := by
  obtain ⟨hname, hkind⟩ := h
  refine ⟨nameMatches_byExtension.trans ?_, hkind⟩
  exact extension_of_globMatch hx (nameMatches_bySuffix.symm.trans hname)

theorem accepts_bySuffix (hx : IsExtension (asBytes x)) (hstar : byte '*' ∉ e.fileName)
    (hlower : e.fileName.map toAsciiLowercase = e.fileName) (h : (S.byExtension x).Accepts e) :
    (S.bySuffix x).Accepts e := by
  obtain ⟨hname, hkind⟩ := h
  refine ⟨nameMatches_bySuffix.trans ?_, hkind⟩
  exact globMatch_of_extension hx hstar hlower (nameMatches_byExtension.symm.trans hname)

/-! ### Traversals -/

theorem traverse_bySuffix (hx : IsExtension (asBytes x)) (dir : PathBuf) :
    (((S.bySuffix x).traverse dir).map fun m => entryPath m.dir m.name).Sublist
      (((S.byExtension x).traverse dir).map fun m => entryPath m.dir m.name) := by
  refine traverse_sublist (S := S.byExtension x) (T := S.bySuffix x) dir
    (fun _ _ => List.Sublist.refl _) fun d _ => ?_
  refine matchesIn_sublist (R := Eq) (List.forall₂_same.2 fun _ _ => rfl) ?_
  rintro _ e rfl ha
  exact ⟨e, rfl, rfl, accepts_byExtension hx ha⟩

theorem traverse_byExtension (hx : IsExtension (asBytes x)) (dir : PathBuf)
    (hnames : ∀ d ∈ S.tree.preorder dir, ∀ e, some e ∈ S.fs.listing d →
      byte '*' ∉ e.fileName ∧ e.fileName.map toAsciiLowercase = e.fileName) :
    (((S.byExtension x).traverse dir).map fun m => entryPath m.dir m.name).Sublist
      (((S.bySuffix x).traverse dir).map fun m => entryPath m.dir m.name) := by
  refine traverse_sublist (S := S.bySuffix x) (T := S.byExtension x) dir
    (fun _ _ => List.Sublist.refl _) fun d hd => ?_
  refine matchesIn_sublist (R := fun o o' => o = o' ∧ o ∈ S.fs.listing d)
    (List.forall₂_same.2 fun _ ho => ⟨rfl, ho⟩) ?_
  rintro _ e ⟨rfl, he⟩ ha
  obtain ⟨hstar, hlower⟩ := hnames d hd e he
  exact ⟨e, rfl, rfl, accepts_bySuffix hx hstar hlower ha⟩

end Scheduler

namespace Program

open Scheduler

theorem eq_of_bounds {a b : Option ℕ} (hab : ∀ k ∈ a, ∃ l ∈ b, k ≤ l)
    (hba : ∀ l ∈ b, ∃ k ∈ a, l ≤ k) : a = b := by
  cases a with
  | none =>
    cases b with
    | none => rfl
    | some l => obtain ⟨k, hk, -⟩ := hba l rfl; cases hk
  | some k =>
    obtain ⟨l, rfl, hkl⟩ := hab k rfl
    obtain ⟨k', hk, hlk⟩ := hba l rfl
    obtain rfl := Option.some.inj hk
    rw [Nat.le_antisymm hkl hlk]

/-- A file `f.x`, and a file `f.X`. -/
def upper : Search where
  fs :=
    { readDir := fun p => if p = [byte 'r'] then
        some [some ⟨"f.x".toList.map byte, some .file, some 1⟩,
          some ⟨"f.X".toList.map byte, some .file, some 1⟩] else none
      metadata := fun _ => none
      height := fun _ => 0
      height_lt := by
        intro dir es e hr he hd
        split_ifs at hr
        cases hr
        simp only [List.mem_cons, Option.some.injEq, List.not_mem_nil, or_false] at he
        rcases he with rfl | rfl <;> cases hd }
  root := [byte 'r']
  filter := Scheduler.small.filter
  output := Scheduler.small.output

end Program

end Pfind
