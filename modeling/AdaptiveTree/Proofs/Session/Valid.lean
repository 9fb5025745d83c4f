import AdaptiveTree.Proofs.Machine.Release
import AdaptiveTree.Proofs.Session.Basic
import AdaptiveTree.Proofs.Simulation.Programs

/-!
What holds of an engine through its whole history. Its machine is sound, every program that was
not released shows its source from a root of its own, and the number of a program that was
released leads nowhere.
-/

set_option autoImplicit false
set_option relaxedAutoImplicit false

namespace AdaptiveTree

/-- A root from which the whole source of a program can be read. -/
structure Issue.Present (calls : NodeId → Span) (t : Tree) (i : Issue) (x : NodeId) : Prop where
  resolve : t.resolve i.program.root = .ok x
  isRoot : t.IsRoot x
  shows : Shows calls (fun _ ↦ False) t i.program.root (.ofProgram i.options i.source)

/-- The number of a program was given out once and leads nowhere. -/
structure Issue.Absent (t : Tree) (i : Issue) : Prop where
  bounded : i.program.root < t.slots.size
  resolve : ∃ e, t.resolve i.program.root = .error e

/-- `calls` gives the place in the source of the call that a return tail stands for. -/
structure Valid (calls : NodeId → Span) (m : Machine) (issues : List Issue) : Prop where
  sound : m.Sound calls
  present : ∀ i ∈ issues, i.released = false → ∃ x, i.Present calls m.tree x
  absent : ∀ i ∈ issues, i.released = true → i.Absent m.tree
  apart : ∀ (a b : Nat) (i j : Issue) (x : NodeId), issues[a]? = some i → issues[b]? = some j →
    m.tree.resolve i.program.root = .ok x → m.tree.resolve j.program.root = .ok x → a = b

/-! ### Trees that carry on -/

/-- The programs of one tree go on in the other one, each from a root of its own. -/
structure Tree.Carries (calls calls' : NodeId → Span) (t t' : Tree) : Prop where
  persists : Tree.Persists t t'
  ascending : t'.Ascending
  size_le : t.slots.size ≤ t'.slots.size
  root : ∀ x, t.IsRoot x → ∃ x', t'.resolve x = .ok x' ∧ t'.IsRoot x'
  shows : ∀ id part, Shows calls (fun _ ↦ False) t id part →
    Shows calls' (fun _ ↦ False) t' id part
  apart : ∀ x y x', t.IsRoot x → t.IsRoot y → t'.resolve x = .ok x' → t'.resolve y = .ok x' → x = y

variable {calls calls' : NodeId → Span} {busy : NodeId → Prop} {t t' : Tree} {m m' : Machine}
  {issues : List Issue}

theorem Tree.Adapts.carries (h : Tree.Adapts calls busy t t') (hforest : t.Forest) :
    Tree.Carries calls calls t t' := by
  have hevolves := h.evolves hforest
  refine ⟨hevolves.persists, hevolves.forest.ascending, hevolves.size_le, fun x hx ↦ ?_,
    fun id part hshows ↦ hshows.adapts hforest (fun _ hb ↦ hb.elim) h, fun x y x' hx hy ↦ ?_⟩
  · obtain ⟨n, hn, hnone⟩ := hx
    obtain ⟨x', n', hresolve, hn', _, hparent⟩ := hevolves.lives x n hn
    exact ⟨x', hresolve, n', hn', hparent.mpr hnone⟩
  · obtain ⟨m, hm, _⟩ := hx
    obtain ⟨n, hn, _⟩ := hy
    exact hevolves.apart x y m n x' hm hn

theorem Tree.Carries.of_kept (hpersists : Tree.Persists t t') (hascending : t'.Ascending)
    (hsize : t.slots.size ≤ t'.slots.size) (hroot : ∀ x, t.IsRoot x → t'.IsRoot x)
    (hshows : ∀ id part, Shows calls (fun _ ↦ False) t id part →
      Shows calls' (fun _ ↦ False) t' id part) : Tree.Carries calls calls' t t' := by
  have hresolve : ∀ x, t.IsRoot x → t'.resolve x = .ok x := fun x hx ↦ by
    obtain ⟨n, hn, _⟩ := hroot x hx
    exact Tree.resolve_of_node? hn
  refine ⟨hpersists, hascending, hsize, fun x hx ↦ ⟨x, hresolve x hx, hroot x hx⟩, hshows, ?_⟩
  intro x y x' hx hy hx' hy'
  rw [hresolve x hx] at hx'
  rw [hresolve y hy] at hy'
  exact (Except.ok.inj hx').trans (Except.ok.inj hy').symm

theorem Grows.carries (h : Grows calls calls' m m') :
    Tree.Carries calls calls' m.tree m'.tree :=
  .of_kept h.persists h.sound.forest.ascending h.size_le (fun _ hx ↦ h.isRoot hx)
    fun _ _ hshows ↦ hshows.grows h

namespace Valid

theorem carry (h : Valid calls m issues) (hcarries : Tree.Carries calls calls' m.tree m'.tree)
    (hsound : m'.Sound calls') : Valid calls' m' issues where
  sound := hsound
  present := fun i hi hkept ↦ by
    obtain ⟨x, hresolve, hroot, hshows⟩ := h.present i hi hkept
    obtain ⟨x', hx', hroot'⟩ := hcarries.root x hroot
    refine ⟨x', ?_, hroot', hcarries.shows _ _ hshows⟩
    rw [hcarries.persists.resolve_eq hcarries.ascending hresolve, hx']
  absent := fun i hi hgone ↦ by
    obtain ⟨hbounded, e, hresolve⟩ := h.absent i hi hgone
    exact ⟨Nat.lt_of_lt_of_le hbounded hcarries.size_le, e,
      hcarries.persists.resolve_eq_error h.sound.forest.ascending hcarries.ascending hbounded
        hresolve⟩
  apart := fun a b i j x' hi hj hi' hj' ↦ by
    have hroot {k : Issue} (hk : k ∈ issues)
        (hresolve : m'.tree.resolve k.program.root = .ok x') :
        ∃ x, m.tree.resolve k.program.root = .ok x ∧ m.tree.IsRoot x ∧
          m'.tree.resolve x = .ok x' := by
      cases hreleased : k.released with
      | false =>
        obtain ⟨x, hx, hroot, _⟩ := h.present k hk hreleased
        refine ⟨x, hx, hroot, ?_⟩
        rw [← hcarries.persists.resolve_eq hcarries.ascending hx, hresolve]
      | true =>
        obtain ⟨hbounded, e, he⟩ := h.absent k hk hreleased
        rw [hcarries.persists.resolve_eq_error h.sound.forest.ascending hcarries.ascending
          hbounded he] at hresolve
        simp at hresolve
    obtain ⟨x, hx, hrootx, hx'⟩ := hroot (List.mem_of_getElem? hi) hi'
    obtain ⟨y, hy, hrooty, hy'⟩ := hroot (List.mem_of_getElem? hj) hj'
    obtain rfl := hcarries.apart x y x' hrootx hrooty hx' hy'
    exact h.apart a b i j x hi hj hx hy

/-- A program is entered with a root that no other program leads to. -/
theorem enter (h : Valid calls m issues) {i : Issue} {x : NodeId} (hkept : i.released = false)
    (hpresent : i.Present calls m.tree x)
    (hfresh : ∀ j ∈ issues, m.tree.resolve j.program.root ≠ .ok x) :
    Valid calls m (issues ++ [i]) where
  sound := h.sound
  present := fun j hj hj' ↦ by
    rcases List.mem_append.mp hj with hj | hj
    · exact h.present j hj hj'
    · rw [List.mem_singleton.mp hj]
      exact ⟨x, hpresent⟩
  absent := fun j hj hj' ↦ by
    rcases List.mem_append.mp hj with hj | hj
    · exact h.absent j hj hj'
    · rw [List.mem_singleton.mp hj, hkept] at hj'
      simp at hj'
  apart := fun a b j k y hj hk hjy hky ↦ by
    have hcases : ∀ (c : Nat) (k : Issue), (issues ++ [i])[c]? = some k →
        issues[c]? = some k ∨ c = issues.length ∧ k = i := by
      intro c k hk
      rw [List.getElem?_append] at hk
      split_ifs at hk with hlt
      · exact Or.inl hk
      · rw [List.getElem?_singleton] at hk
        split_ifs at hk with hzero
        exact Or.inr ⟨by omega, (Option.some.inj hk).symm⟩
    have hnew : ∀ (c : Nat) (k : Issue), issues[c]? = some k →
        m.tree.resolve k.program.root ≠ m.tree.resolve i.program.root := by
      intro c k hk heq
      exact hfresh k (List.mem_of_getElem? hk) (heq.trans hpresent.resolve)
    rcases hcases a j hj with hj | ⟨rfl, rfl⟩
    · rcases hcases b k hk with hk | ⟨rfl, rfl⟩
      · exact h.apart a b j k y hj hk hjy hky
      · exact absurd (hjy.trans hky.symm) (hnew a j ‹_›)
    · rcases hcases b k hk with hk | ⟨rfl, rfl⟩
      · exact absurd (hky.trans hjy.symm) (hnew b k hk)
      · rfl

/-! ### Releasing -/

theorem getElem?_releaseAt {index a : Nat} {j : Issue}
    (h : (Issue.releaseAt index issues)[a]? = some j) :
    ∃ i, issues[a]? = some i ∧ j = if index = a then { i with released := true } else i := by
  rw [Issue.releaseAt, List.getElem?_modify] at h
  obtain ⟨i, hi, hj⟩ := Option.map_eq_some_iff.mp h
  exact ⟨i, hi, hj.symm⟩

/-- The root of the program released is discarded. -/
theorem absent_discard (h : Valid calls m issues) {i : Issue} {x : NodeId}
    (hpresent : i.Present calls m.tree x) : i.Absent (m.tree.discard x) := by
  have hforest := h.sound.forest
  have hgone : (m.tree.discard x).slots[x]? = some .discarded := by
    obtain ⟨n, hn, _⟩ := hpresent.isRoot
    have hdead := Tree.node?_discard_of_reaches (t := m.tree) (x := x) Relation.ReflTransGen.refl
    rcases (Tree.discarded_discard m.tree x).slot x with heq | ⟨heq, _⟩
    · rw [Tree.node?, heq] at hdead
      cases hdead.symm.trans hn
    · exact heq
  refine ⟨?_, .retired x, ?_⟩
  · rw [(Tree.discarded_discard m.tree x).size_eq]
    exact Tree.lt_size_of_resolve hpresent.resolve
  · rw [(Tree.persists_discard hforest hpresent.isRoot).resolve_eq
      (hforest.discard hpresent.isRoot).ascending hpresent.resolve]
    exact Tree.resolve_of_discarded hgone

section Discard

variable (h : Valid calls m issues) {index : Nat} {i : Issue} {x : NodeId}
  (hi : issues[index]? = some i) (hpresent : i.Present calls m.tree x)

include h hpresent

theorem absent_of_absent {j : Issue} (habsent : j.Absent m.tree) :
    j.Absent (m.tree.discard x) := by
  have hforest := h.sound.forest
  obtain ⟨hbounded, e, hresolve⟩ := habsent
  refine ⟨?_, e, ?_⟩
  · rw [(Tree.discarded_discard m.tree x).size_eq]
    exact hbounded
  · exact (Tree.persists_discard hforest hpresent.isRoot).resolve_eq_error hforest.ascending
      (hforest.discard hpresent.isRoot).ascending hbounded hresolve

include hi

/-- The other programs stay where they are. -/
theorem present_of_ne {a : Nat} {j : Issue} (hj : issues[a]? = some j) (hne : index ≠ a)
    (hkept : j.released = false) :
    ∃ y, m.tree.resolve j.program.root = .ok y ∧ j.Present calls (m.tree.discard x) y := by
  have hforest := h.sound.forest
  obtain ⟨y, hy⟩ := h.present j (List.mem_of_getElem? hj) hkept
  have hyx : y ≠ x := by
    rintro rfl
    exact hne (h.apart index a i j y hi hj hpresent.resolve hy.resolve)
  exact ⟨y, hy.resolve, Tree.resolve_discard hforest hpresent.isRoot hy.resolve
    (Tree.not_reaches_root hforest hy.isRoot hyx), hy.isRoot.discard hforest hyx,
    hy.shows.discard hforest hpresent.isRoot hy.resolve hy.isRoot hyx⟩

/-- What was released before or is released now leads nowhere. -/
theorem absent_of_releaseAt {a : Nat} {j : Issue}
    (hj : (Issue.releaseAt index issues)[a]? = some j) (hgone : j.released = true) :
    j.Absent (m.tree.discard x) := by
  obtain ⟨j', hj', rfl⟩ := getElem?_releaseAt hj
  by_cases hne : index = a
  · obtain rfl := Option.some.inj (hj'.symm.trans (hne ▸ hi))
    rw [if_pos hne]
    obtain ⟨hbounded, hresolve⟩ := h.absent_discard hpresent
    exact ⟨hbounded, hresolve⟩
  · rw [if_neg hne] at hgone ⊢
    exact h.absent_of_absent hpresent (h.absent j' (List.mem_of_getElem? hj') hgone)

/-- Whoever leads somewhere afterwards was not released, and led there before. -/
theorem resolve_of_releaseAt {a : Nat} {j : Issue} {y : NodeId}
    (hj : (Issue.releaseAt index issues)[a]? = some j)
    (hy : (m.tree.discard x).resolve j.program.root = .ok y) :
    issues[a]? = some j ∧ m.tree.resolve j.program.root = .ok y := by
  cases hreleased : j.released with
  | true =>
    obtain ⟨e, he⟩ := (h.absent_of_releaseAt hi hpresent hj hreleased).resolve
    simp [he] at hy
  | false =>
    obtain ⟨j', hj', rfl⟩ := getElem?_releaseAt hj
    split_ifs at hreleased hy ⊢ with hne
    obtain ⟨z, hz, hz'⟩ := h.present_of_ne hi hpresent hj' hne hreleased
    obtain rfl := Except.ok.inj (hz'.resolve.symm.trans hy)
    exact ⟨hj', hz⟩

/-- The tree of one program is discarded. -/
theorem discard (hsound : m'.Sound calls) (htree : m'.tree = m.tree.discard x) :
    Valid calls m' (Issue.releaseAt index issues) where
  sound := hsound
  present := fun j hj hkept ↦ by
    rw [htree]
    obtain ⟨a, ha⟩ := List.mem_iff_getElem?.mp hj
    obtain ⟨j', hj', rfl⟩ := getElem?_releaseAt ha
    split_ifs at hkept with hne
    obtain ⟨y, _, hy⟩ := h.present_of_ne hi hpresent hj' hne hkept
    rw [if_neg hne]
    exact ⟨y, hy⟩
  absent := fun j hj hgone ↦ by
    rw [htree]
    obtain ⟨a, ha⟩ := List.mem_iff_getElem?.mp hj
    exact h.absent_of_releaseAt hi hpresent ha hgone
  apart := fun a b j k y hj hk hjy hky ↦ by
    rw [htree] at hjy hky
    obtain ⟨hj', hjy'⟩ := h.resolve_of_releaseAt hi hpresent hj hjy
    obtain ⟨hk', hky'⟩ := h.resolve_of_releaseAt hi hpresent hk hky
    exact h.apart a b j k y hj' hk' hjy' hky'

end Discard

/-- Releasing a program that is gone changes no program. -/
theorem releaseAt_of_released {index : Nat} {i : Issue} (hi : issues[index]? = some i)
    (hgone : i.released = true) :
    Issue.releaseAt index issues = issues := by
  refine List.ext_getElem? fun a ↦ ?_
  rw [Issue.releaseAt, List.getElem?_modify]
  by_cases hne : index = a
  · obtain ⟨program, source, options, released⟩ := i
    obtain rfl : released = true := hgone
    rw [← hne, hi]
    simp
  · simp [hne]

end Valid

end AdaptiveTree
