import Ashttpd.References
import Ashttpd.Vhosts

/-!
# The table of virtual hosts holds what it opens

A webroot has a reference as long as a slot has it. An event that finds what it needs puts a webroot in
the slot of its name, or takes it out, and gives back the one that was there.
-/
namespace Ashttpd

namespace Vhosts

variable {v v' : Vhosts} {name : CStr} {file w : ℕ} {a : Allocs}

def counts (v : Vhosts) : List ℕ := v.roots.map OpenRoot.rRef

def files (v : Vhosts) : List ℕ := v.roots.map OpenRoot.file

/-- A table as it is between two events. -/
structure Sound (v : Vhosts) : Prop where
  tree : v.vhosts.Sound
  unnamed : cbContains v.vhosts defaultName = none
  notNull : ∀ name, cbContains v.vhosts name ≠ some none
  owned : Owned v.slot v.counts
  released : ∀ w < v.roots.length, (∀ name, v.slot name ≠ some w) → w ∈ v.unrefs
  bounded : ∀ w ∈ v.unrefs, w < v.roots.length

/-- Another webroot, or none, is in the slot of a name, and what was there is given back. -/
structure Changed (v : Vhosts) (name : CStr) (w : Option ℕ) (v' : Vhosts) : Prop where
  sound : v'.Sound
  slot : v'.slot = Function.update v.slot name w
  unrefs : v'.unrefs = v.unrefs ++ (v.slot name).toList

theorem webrootUnref_spec {w : Option ℕ} (hw : ∀ i, w = some i → v.counts[i]? = some 1) :
    ∃ v', v.webrootUnref w = .ok v' ∧ v'.vhosts = v.vhosts ∧ v'.vdefault = v.vdefault ∧
      v'.files = v.files ∧ v'.counts = release w v.counts ∧ v'.unrefs = v.unrefs ++ w.toList := by
  cases w with
  | none => exact ⟨v, rfl, rfl, rfl, rfl, rfl, (List.append_nil _).symm⟩
  | some i =>
    have hi := hw i rfl
    unfold counts at hi
    rw [List.getElem?_map] at hi
    cases hr : v.roots[i]? with
    | none =>
      rw [hr] at hi
      cases hi
    | some r =>
      rw [hr] at hi
      have hone : r.rRef = 1 := Option.some.inj hi
      have hrun : v.webrootUnref (some i) = .ok { v with
          roots := v.roots.set i { r with rRef := r.rRef - 1 }, unrefs := v.unrefs ++ [i] } := by
        unfold webrootUnref
        simp only
        rw [hr]
        exact if_neg (by rw [hone]; exact Nat.one_ne_zero)
      refine ⟨_, hrun, rfl, rfl, ?_, ?_, rfl⟩
      · unfold files
        rw [List.map_set]
        obtain ⟨hlt, rfl⟩ := List.getElem?_eq_some_iff.mp hr
        have hlt' : i < (v.roots.map OpenRoot.file).length := by rwa [List.length_map]
        rw [← List.getElem_map OpenRoot.file (h := hlt')]
        exact List.set_getElem_self hlt'
      · unfold counts release
        rw [List.map_set, hone]

/-- What an event needs: to put a name in, that it can be inserted, and to take it out, that it is there. -/
def Served (v : Vhosts) : VhostEvent → Prop
  | .add name isdir file a => isdir = false → file ≠ none → name ≠ defaultName →
    Tame v.vhosts (.insert name a (none : Option ℕ)) ∧
      (name ∈ v.vhosts.keys ∨ a.Enough (cbContains v.vhosts))
  | .del name isdir => isdir = false → name ≠ defaultName → name ∈ v.vhosts.keys

theorem slot_default (v : Vhosts) : v.slot defaultName = v.vdefault := if_pos rfl

theorem slot_of_ne (hne : name ≠ defaultName) : v.slot name = (cbContains v.vhosts name).getD none := if_neg hne

theorem Sound.lt_of_unrefs (hv : v.Sound) {i : ℕ} (hi : i ∈ v.unrefs ++ (v.slot name).toList) :
    i < v.roots.length := by
  rcases List.mem_append.mp hi with hi | hi
  · exact hv.bounded i hi
  · have hlt := hv.owned.opened name i (Option.mem_toList.mp hi)
    unfold counts at hlt
    rwa [List.length_map] at hlt

/-- The default changes. -/
theorem Sound.setDefault {v₁ : Vhosts} {w : Option ℕ} (hv : v.Sound) (htree : v₁.vhosts = v.vhosts)
    (howned : Owned (Function.update v.slot defaultName w) v₁.counts)
    (hreleased : ∀ i < v₁.roots.length, (∀ name, Function.update v.slot defaultName w name ≠ some i) → i ∈ v₁.unrefs)
    (hunrefs : v₁.unrefs = v.unrefs ++ v.vdefault.toList) (hle : v.roots.length ≤ v₁.roots.length) :
    Changed v defaultName w { v₁ with vdefault := w } := by
  have hslot : ({ v₁ with vdefault := w } : Vhosts).slot = Function.update v.slot defaultName w := by
    funext name
    by_cases hname : name = defaultName
    · subst hname
      rw [Function.update_self]
      exact slot_default _
    · rw [Function.update_of_ne hname, slot_of_ne hname, slot_of_ne hname]
      show (cbContains v₁.vhosts name).getD none = _
      rw [htree]
  refine ⟨⟨?_, ?_, ?_, ?_, ?_, ?_⟩, hslot, ?_⟩
  · show v₁.vhosts.Sound
    rw [htree]
    exact hv.tree
  · show cbContains v₁.vhosts defaultName = none
    rw [htree]
    exact hv.unnamed
  · show ∀ name, cbContains v₁.vhosts name ≠ some none
    rw [htree]
    exact hv.notNull
  · rw [hslot]
    exact howned
  · rw [hslot]
    exact hreleased
  · rw [← slot_default] at hunrefs
    exact fun i hi => Nat.lt_of_lt_of_le (hv.lt_of_unrefs (hunrefs ▸ hi)) hle
  · rw [slot_default]
    exact hunrefs

/-- The webroot of a name changes. -/
theorem Sound.setName {v₁ : Vhosts} {w : Option ℕ} (hv : v.Sound) (hname : name ≠ defaultName)
    (htree : v₁.vhosts.Sound)
    (hcontents : cbContains v₁.vhosts = Function.update (cbContains v.vhosts) name (w.map some))
    (hdefault : v₁.vdefault = v.vdefault) (howned : Owned (Function.update v.slot name w) v₁.counts)
    (hreleased : ∀ i < v₁.roots.length, (∀ n, Function.update v.slot name w n ≠ some i) → i ∈ v₁.unrefs)
    (hunrefs : v₁.unrefs = v.unrefs ++ (v.slot name).toList) (hle : v.roots.length ≤ v₁.roots.length) :
    Changed v name w v₁ := by
  have hslot : v₁.slot = Function.update v.slot name w := by
    funext n
    by_cases hn : n = defaultName
    · subst hn
      rw [Function.update_of_ne (Ne.symm hname), slot_default, slot_default, hdefault]
    · rw [slot_of_ne hn, hcontents]
      by_cases hnn : n = name
      · subst hnn
        rw [Function.update_self, Function.update_self]
        cases w <;> rfl
      · rw [Function.update_of_ne hnn, Function.update_of_ne hnn, slot_of_ne hn]
  refine ⟨⟨htree, ?_, ?_, ?_, ?_, ?_⟩, hslot, hunrefs⟩
  · rw [hcontents, Function.update_of_ne (Ne.symm hname)]
    exact hv.unnamed
  · intro n
    rw [hcontents]
    by_cases hnn : n = name
    · subst hnn
      rw [Function.update_self]
      cases w <;> simp
    · rw [Function.update_of_ne hnn]
      exact hv.notNull n
  · rw [hslot]
    exact howned
  · rw [hslot]
    exact hreleased
  · exact fun i hi => Nat.lt_of_lt_of_le (hv.lt_of_unrefs (hunrefs ▸ hi)) hle

theorem Sound.released_update (hv : v.Sound) {new : Option ℕ} {i : ℕ} (hi : i < v.roots.length)
    (hnew : ∀ n, Function.update v.slot name new n ≠ some i) : i ∈ v.unrefs ++ (v.slot name).toList := by
  by_cases hold : v.slot name = some i
  · rw [hold]
    exact List.mem_append_right _ (List.mem_singleton_self i)
  · apply List.mem_append_left
    apply hv.released i hi
    intro n hn
    have hne : n ≠ name := by
      rintro rfl
      exact hold hn
    exact hnew n (by rw [Function.update_of_ne hne]; exact hn)

/-- The webroot in a slot can be given back, of the table itself and of any that has its webroots and more. -/
theorem Sound.unref_slot (hv : v.Sound) (name : CStr) (v₁ : Vhosts) (hcounts : ∃ more, v₁.counts = v.counts ++ more) :
    ∃ v₂, v₁.webrootUnref (v.slot name) = .ok v₂ ∧ v₂.vhosts = v₁.vhosts ∧ v₂.vdefault = v₁.vdefault ∧
      v₂.files = v₁.files ∧ v₂.counts = release (v.slot name) v₁.counts ∧
      v₂.unrefs = v₁.unrefs ++ (v.slot name).toList := by
  apply webrootUnref_spec
  intro i hi
  obtain ⟨more, hmore⟩ := hcounts
  rw [hmore, List.getElem?_append_left (hv.owned.opened name i hi)]
  exact hv.owned.count_eq hi

theorem length_eq_of_files (h : v.files = v'.files) : v.roots.length = v'.roots.length := by
  have hlen := congrArg List.length h
  unfold files at hlen
  rwa [List.length_map, List.length_map] at hlen

theorem vhostDel_spec (hv : v.Sound) (hserved : v.Served (.del name false)) :
    ∃ v', v.vhostDel name false = .ok v' ∧ Changed v name none v' ∧ v'.files = v.files := by
  have hsame : ∃ more, v.counts = v.counts ++ more := ⟨[], (List.append_nil _).symm⟩
  unfold vhostDel
  rw [if_neg Bool.false_ne_true]
  by_cases hname : name = defaultName
  · subst hname
    rw [if_pos rfl]
    obtain ⟨v₁, hrun, htree, -, hfiles, hcounts, hunrefs⟩ := hv.unref_slot defaultName v hsame
    rw [slot_default] at hrun
    rw [hrun]
    refine ⟨_, rfl, hv.setDefault htree ?_ ?_ ?_ (Nat.le_of_eq (length_eq_of_files hfiles).symm), hfiles⟩
    · rw [hcounts]
      exact hv.owned.release defaultName
    · intro i hi hnew
      rw [length_eq_of_files hfiles] at hi
      rw [hunrefs]
      exact hv.released_update hi hnew
    · rw [hunrefs, slot_default]
  · rw [if_neg hname]
    obtain ⟨t', r, hcall, hsound, hstep, -⟩ := delete_done hv.tree name
    have hdel : t' = (cbDelete v.vhosts name).tree ∧ r.val = (cbDelete v.vhosts name).val := by
      cases hcall
      exact ⟨rfl, rfl⟩
    generalize hcontents : cbContains t' = m at hstep
    cases hstep with
    | missing hnone =>
      have hkey := hserved rfl hname
      rw [keys_eq_entries] at hkey
      exact absurd hkey ((cbContains_eq_none_iff hv.tree).mp hnone)
    | gone hsome =>
      next w =>
      have hslot : v.slot name = w := by rw [slot_of_ne hname, hsome]; rfl
      obtain ⟨htree', hval⟩ := hdel
      simp only
      rw [← hval, ← htree']
      obtain ⟨v₁, hrun, htree, hdefault, hfiles, hcounts, hunrefs⟩ :=
        hv.unref_slot name { v with vhosts := t' } hsame
      rw [hslot] at hrun
      refine ⟨v₁, hrun, hv.setName hname ?_ ?_ hdefault ?_ ?_ hunrefs
        (Nat.le_of_eq (length_eq_of_files hfiles).symm), hfiles⟩
      · rw [htree]
        exact hsound
      · rw [htree]
        exact hcontents
      · rw [hcounts]
        exact hv.owned.release name
      · intro i hi hnew
        rw [length_eq_of_files hfiles] at hi
        rw [hunrefs]
        exact hv.released_update hi hnew

/-- With the memory it takes, and only then, an insertion gives a slot. -/
theorem insert_val_iff {t t' : CbTree ℕ} {r : CbResult ℕ} {w : Option ℕ} (ht : t.Sound)
    (hstep : MapStep (cbContains t) (.insert name a w) r (cbContains t')) :
    r.val ≠ none ↔ name ∈ t.keys ∨ a.Enough (cbContains t) := by
  rw [keys_eq_entries]
  generalize cbContains t' = m at hstep
  cases hstep with
  | again hsome =>
    refine iff_of_true nofun (Or.inl ?_)
    by_contra hkey
    rw [(cbContains_eq_none_iff ht).mpr hkey] at hsome
    cases hsome
  | new hnone ha => exact iff_of_true nofun (Or.inr ha)
  | failed hnone ha =>
    apply iff_of_false (fun h => h rfl)
    rintro (hkey | henough)
    · exact (cbContains_eq_none_iff ht).mp hnone hkey
    · exact ha henough

/-- An event for a file that can be opened, in a table where it is served. -/
theorem vhostAdd_spec (hv : v.Sound) (hserved : v.Served (.add name false (some file) a)) :
    ∃ v', v.vhostAdd name false (some file) a = .ok v' ∧ Changed v name (some v.roots.length) v' ∧
      v'.files = v.files ++ [file] := by
  have hcounts₀ : (v.webrootOpen file).counts = v.counts ++ [1] := by
    unfold webrootOpen counts
    rw [List.map_append]
    rfl
  have hfiles₀ : (v.webrootOpen file).files = v.files ++ [file] := by
    unfold webrootOpen files
    rw [List.map_append]
    rfl
  have hlength : v.counts.length = v.roots.length := List.length_map _
  have howned : Owned (Function.update v.slot name (some v.roots.length)) (release (v.slot name) (v.counts ++ [1])) := by
    rw [← hlength]
    exact hv.owned.replace name
  have hlen : ∀ v₂ : Vhosts, v₂.files = v.files ++ [file] → v₂.roots.length = v.roots.length + 1 := by
    intro v₂ hfiles₂
    rw [length_eq_of_files (hfiles₂.trans hfiles₀.symm)]
    exact List.length_append
  have hreleased : ∀ v₂ : Vhosts, v₂.files = v.files ++ [file] → ∀ i < v₂.roots.length,
      (∀ n, Function.update v.slot name (some v.roots.length) n ≠ some i) →
        i ∈ v.unrefs ++ (v.slot name).toList := by
    intro v₂ hfiles₂ i hi hnew
    have hlen₂ := hlen v₂ hfiles₂
    have hne : i ≠ v.roots.length := by
      rintro rfl
      exact hnew name (Function.update_self _ _ _)
    exact hv.released_update (by omega) hnew
  unfold vhostAdd
  rw [if_neg Bool.false_ne_true]
  simp only
  by_cases hname : name = defaultName
  · subst hname
    rw [if_pos rfl]
    obtain ⟨v₁, hrun, htree, -, hfiles, hcounts, hunrefs⟩ :=
      hv.unref_slot defaultName (v.webrootOpen file) ⟨[1], hcounts₀⟩
    rw [slot_default] at hrun
    have hrun' : (v.webrootOpen file).webrootUnref (v.webrootOpen file).vdefault = .ok v₁ := hrun
    rw [hrun']
    refine ⟨_, rfl, hv.setDefault htree ?_ ?_ ?_
      (Nat.le_of_lt (hlen v₁ (hfiles.trans hfiles₀) ▸ Nat.lt_succ_self _)), hfiles.trans hfiles₀⟩
    · rw [hcounts, hcounts₀]
      exact howned
    · rw [hunrefs]
      exact hreleased v₁ (hfiles.trans hfiles₀)
    · rw [hunrefs, slot_default]
      rfl
  · rw [if_neg hname]
    obtain ⟨htame, hroom⟩ := hserved rfl nofun hname
    obtain ⟨t', r, hcall, hsound, hstep, -⟩ :=
      (call_done_iff hv.tree (.insert name a (some v.roots.length))).1 htame
    have hval := (insert_val_iff hv.tree hstep).mpr hroom
    have hinsert : ∃ n slot, cbInsert v.vhosts name a = .ok ⟨r.ret, some n, some slot⟩ ∧
        n.value slot = r.val ∧ some (n.store (some v.roots.length) slot) = t' := by
      unfold CbTree.call at hcall
      simp only at hcall
      cases hins : cbInsert v.vhosts name a with
      | error f =>
        rw [hins] at hcall
        cases hcall
      | ok ins =>
        obtain ⟨ret, tree, slot⟩ := ins
        rw [hins] at hcall
        cases tree with
        | none =>
          cases hcall
          exact absurd rfl hval
        | some n =>
          cases slot with
          | none =>
            cases hcall
            exact absurd rfl hval
          | some slot =>
            cases hcall
            exact ⟨n, slot, rfl, rfl, rfl⟩
    obtain ⟨n, slot, hins, hold, rfl⟩ := hinsert
    have hslot : r.val = some (v.slot name) ∧
        cbContains (some (n.store (some v.roots.length) slot)) =
          Function.update (cbContains v.vhosts) name (some (some v.roots.length)) := by
      generalize cbContains (some (n.store (some v.roots.length) slot)) = m at hstep
      cases hstep with
      | again hsome => exact ⟨by rw [slot_of_ne hname, hsome]; rfl, rfl⟩
      | new hnone ha => exact ⟨by rw [slot_of_ne hname, hnone]; rfl, rfl⟩
      | failed hnone ha => exact absurd rfl hval
    obtain ⟨hslot, hcontents⟩ := hslot
    obtain ⟨v₁, hrun, htree, hdefault, hfiles, hcounts, hunrefs⟩ :=
      hv.unref_slot name { v.webrootOpen file with vhosts := some n } ⟨[1], hcounts₀⟩
    have hadd : (v.webrootOpen file).addName name v.roots.length a =
        .ok { v₁ with vhosts := some (n.store (some v.roots.length) slot) } := by
      unfold addName
      show (do
        let r ← cbInsert v.vhosts name a
        _) = _
      rw [hins]
      show (do
        let v ← ({ v.webrootOpen file with vhosts := some n } : Vhosts).webrootUnref ((n.value slot).getD none)
        _) = _
      rw [hold, hslot, Option.getD_some, hrun]
      rfl
    refine ⟨_, hadd, hv.setName hname hsound hcontents hdefault ?_ ?_ hunrefs
      (Nat.le_of_lt (hlen v₁ (hfiles.trans hfiles₀) ▸ Nat.lt_succ_self _)), hfiles.trans hfiles₀⟩
    · show Owned _ v₁.counts
      rw [hcounts]
      show Owned _ (release _ (v.webrootOpen file).counts)
      rw [hcounts₀]
      exact howned
    · show ∀ i < v₁.roots.length, _ → i ∈ v₁.unrefs
      rw [hunrefs]
      exact hreleased v₁ (hfiles.trans hfiles₀)

end Vhosts
end Ashttpd
