import Ashttpd.VhostTable

/-!
# Events for the table of virtual hosts

As long as every event finds what it needs, nothing is given back that the table does not hold, no webroot
is forgotten, and names do not get in the way of each other.
-/
namespace Ashttpd

namespace Vhosts

variable {v v' : Vhosts}

def Accounted (v : Vhosts) : Prop :=
  ∀ w < v.roots.length, (∃! name, v.slot name = some w) ∨ (∀ name, v.slot name ≠ some w) ∧ w ∈ v.unrefs

theorem Sound.accounted (hv : v.Sound) : v.Accounted := by
  intro w hw
  by_cases hheld : ∃ name, v.slot name = some w
  · obtain ⟨name, hname⟩ := hheld
    exact Or.inl ⟨name, hname, fun name' hname' => hv.owned.once name' name w hname' hname⟩
  · push Not at hheld
    exact Or.inr ⟨hheld, hv.released w hw hheld⟩

/-- Looking up a name that has no webroot gives the default. -/
theorem Sound.vhostsLookup_eq (hv : v.Sound) (host : CStr) :
    v.vhostsLookup host = (v.slot host).or (v.slot defaultName) := by
  unfold vhostsLookup
  rw [slot_default]
  by_cases hhost : host = defaultName
  · subst hhost
    rw [hv.unnamed, slot_default, Option.or_self]
  · rw [slot_of_ne hhost]
    cases hc : cbContains v.vhosts host with
    | none => rfl
    | some w =>
      cases w with
      | none => exact absurd hc (hv.notNull host)
      | some w => rfl

end Vhosts

/-- The name in an event. -/
def VhostEvent.name : VhostEvent → CStr
  | .add name _ _ _ => name
  | .del name _ => name

namespace Vhosts

variable {v v' : Vhosts} {e : VhostEvent} {name : CStr} {a : Allocs}

/-- What an event does to a table that it is served in. -/
structure Kept (v : Vhosts) (e : VhostEvent) (v' : Vhosts) : Prop where
  sound : v'.Sound
  unrefs : ∃ given, v'.unrefs = v.unrefs ++ given ∧ ∀ w ∈ given, v.slot e.name = some w
  slots : ∀ name, name ≠ e.name → v'.slot name = v.slot name
  lookups : ∀ host, host ≠ e.name → e.name ≠ defaultName ∨ v.slot host ≠ none →
    v'.vhostsLookup host = v.vhostsLookup host

theorem Kept.refl (hv : v.Sound) (e : VhostEvent) : Kept v e v :=
  ⟨hv, ⟨[], (List.append_nil _).symm, nofun⟩, fun _ _ => rfl, fun _ _ _ => rfl⟩

theorem Changed.kept {w : Option ℕ} (hv : v.Sound) (h : Changed v e.name w v') : Kept v e v' := by
  have hslots : ∀ name, name ≠ e.name → v'.slot name = v.slot name := by
    intro name hname
    rw [h.slot, Function.update_of_ne hname]
  refine ⟨h.sound, ⟨_, h.unrefs, fun i hi => Option.mem_toList.mp hi⟩, hslots, ?_⟩
  intro host hhost hother
  rw [h.sound.vhostsLookup_eq, hv.vhostsLookup_eq, hslots host hhost]
  rcases hother with hname | hsome
  · rw [hslots defaultName (Ne.symm hname)]
  · obtain ⟨w, hw⟩ := Option.ne_none_iff_exists'.mp hsome
    rw [hw, Option.some_or, Option.some_or]

theorem handles_of_served (hv : v.Sound) (hserved : v.Served e) : ∃ v', v.Handles e v' ∧ Kept v e v' := by
  cases e with
  | add name isdir file a =>
    cases isdir with
    | true => exact ⟨v, rfl, .refl hv _⟩
    | false =>
      cases file with
      | none => exact ⟨v, rfl, .refl hv _⟩
      | some file =>
        obtain ⟨v', hrun, hchanged, -⟩ := vhostAdd_spec hv hserved
        exact ⟨v', hrun, hchanged.kept (e := .add name false (some file) a) hv⟩
  | del name isdir =>
    cases isdir with
    | true => exact ⟨v, rfl, .refl hv _⟩
    | false =>
      obtain ⟨v', hrun, hchanged, -⟩ := vhostDel_spec hv hserved
      exact ⟨v', hrun, hchanged.kept (e := .del name false) hv⟩

/-- Without the memory it takes, an insertion leaves the tree alone and gives no slot. -/
theorem cbInsert_of_few {t : CbTree ℕ} (ht : t.Sound) (htame : Tame t (.insert name a (none : Option ℕ)))
    (hroom : ¬ (name ∈ t.keys ∨ a.Enough (cbContains t))) : cbInsert t name a = .ok ⟨0, t, none⟩ := by
  obtain ⟨t', r, hcall, hdone⟩ := (call_done_iff ht (.insert name a none)).1 htame
  have hval : r.val = none := not_not.mp (mt (insert_val_iff ht hdone.step).mp hroom)
  cases t with
  | none =>
    have hfew : ¬ (a.leaf ∧ a.key) := fun h => hroom (Or.inr ⟨h.1, h.2, Or.inr rfl⟩)
    exact if_neg hfew
  | some n =>
    have hfew : ¬ (a.node ∧ a.leaf ∧ a.key) := fun h => hroom (Or.inr ⟨h.2.1, h.2.2, Or.inl h.1⟩)
    unfold CbTree.call cbInsert at hcall
    unfold cbInsert
    simp only at hcall ⊢
    cases hdiff : firstDifference (n.leafAt name).1 name with
    | error f =>
      rw [hdiff] at hcall
      cases hcall
    | ok found =>
      rw [hdiff] at hcall
      cases found with
      | none =>
        cases hcall
        rw [n.value_way] at hval
        cases hval
      | some found => exact if_neg hfew

/-- An event that is not served goes wrong, or leaves a webroot that nothing holds. -/
theorem lost_of_not_served (hv : v.Sound) (hserved : ¬ v.Served e) (hrun : v.Handles e v') : ¬ v'.Accounted := by
  cases e with
  | add name isdir file a =>
    unfold Served at hserved
    push Not at hserved
    obtain ⟨rfl, hfile, hname, hfails⟩ := hserved
    obtain ⟨file, rfl⟩ := Option.ne_none_iff_exists'.mp hfile
    have hrun : (v.webrootOpen file).addName name v.roots.length a = .ok v' := by
      unfold Handles vhostAdd at hrun
      simp only at hrun
      rwa [if_neg Bool.false_ne_true, if_neg hname] at hrun
    unfold addName at hrun
    have htree : (v.webrootOpen file).vhosts = v.vhosts := rfl
    rw [htree] at hrun
    by_cases htame : Tame v.vhosts (.insert name a (none : Option ℕ))
    · have hroom : ¬ (name ∈ v.vhosts.keys ∨ a.Enough (cbContains v.vhosts)) := by
        rintro (hkey | henough)
        · exact (hfails htame).1 hkey
        · exact (hfails htame).2 henough
      rw [cbInsert_of_few hv.tree htame hroom] at hrun
      have hleft : v' = v.webrootOpen file := by
        cases hc : v.vhosts with
        | none =>
          rw [hc] at hrun htree
          cases hrun
          rw [← htree]
        | some n =>
          rw [hc] at hrun htree
          cases hrun
          rw [← htree]
      subst hleft
      intro haccounted
      have hlen : v.roots.length < (v.webrootOpen file).roots.length := by
        unfold webrootOpen
        rw [List.length_append]
        exact Nat.lt_succ_self _
      rcases haccounted v.roots.length hlen with ⟨held, hheld, -⟩ | ⟨-, hgiven⟩
      · have hlt := hv.owned.opened held _ hheld
        unfold counts at hlt
        rw [List.length_map] at hlt
        exact Nat.lt_irrefl _ hlt
      · exact Nat.lt_irrefl _ (hv.bounded _ hgiven)
    · obtain ⟨f, hf⟩ := (call_done_iff hv.tree (.insert name a none)).2 htame
      cases hins : cbInsert v.vhosts name a with
      | error f =>
        rw [hins] at hrun
        cases hrun
      | ok r =>
        unfold CbTree.call at hf
        simp only at hf
        rw [hins] at hf
        obtain ⟨ret, tree, slot⟩ := r
        cases tree <;> cases slot <;> cases hf
  | del name isdir =>
    unfold Served at hserved
    push Not at hserved
    obtain ⟨rfl, hname, hkey⟩ := hserved
    rw [keys_eq_entries, ← cbContains_eq_none_iff hv.tree] at hkey
    obtain ⟨t', r, hcall, hdone⟩ := delete_done hv.tree name
    have hstep := hdone.step
    generalize cbContains t' = m at hstep
    have hval : (cbDelete v.vhosts name).val = none := by
      have hr : r.val = (cbDelete v.vhosts name).val := by
        cases hcall
        rfl
      rw [← hr]
      cases hstep with
      | gone hsome =>
        rw [hkey] at hsome
        cases hsome
      | missing hnone => rfl
    unfold Handles vhostDel at hrun
    simp only at hrun
    rw [if_neg Bool.false_ne_true, if_neg hname, hval] at hrun
    cases hrun

theorem sound_empty : empty.Sound := by
  refine ⟨trivial, rfl, nofun, ⟨?_, ?_, ?_, ?_⟩, nofun, nofun⟩
  · intro name w h
    unfold slot at h
    split at h <;> cases h
  · intro name name' w h
    unfold slot at h
    split at h <;> cases h
  · intro name w n h
    unfold slot at h
    split at h <;> cases h
  · intro w n _ h
    cases h

/-- In a run whose events all find what they need, every webroot that was opened is held by one slot or was
given back, and the next event gives back only what the slot of its name holds and leaves the
slots of the other names alone; so every name that has a webroot, or is not the
default's, is looked up as before. An event that does not find what it needs goes wrong, or leaves a webroot
that nothing holds. -/
theorem vhost_table_holds {events : List VhostEvent} (hrun : GuardedRun Handles Served empty events v) :
    v.Accounted ∧ ∀ e, (v.Served e ↔ ∃ v', v.Handles e v' ∧ v'.Accounted) ∧
      ∀ v', v.Served e → v.Handles e v' →
        (∃ given, v'.unrefs = v.unrefs ++ given ∧ ∀ w ∈ given, v.slot e.name = some w) ∧
        (∀ name, name ≠ e.name → v'.slot name = v.slot name) ∧
        (∀ host, host ≠ e.name → e.name ≠ defaultName ∨ v.slot host ≠ none →
          v'.vhostsLookup host = v.vhostsLookup host) := by
  have hdone : ∀ {v v' : Vhosts} {e : VhostEvent}, v.Sound → v.Served e → v.Handles e v' → Kept v e v' := by
    intro v v' e hv hserved hhandled
    obtain ⟨v'', hhandled', hkept⟩ := handles_of_served hv hserved
    have heq : v'' = v' := by
      cases e with
      | add name isdir file a =>
        cases hhandled.symm.trans hhandled'
        rfl
      | del name isdir =>
        cases hhandled.symm.trans hhandled'
        rfl
    rwa [← heq]
  have hv : v.Sound := by
    apply hrun.invariant (I := fun _ v => v.Sound)
    · exact fun _ v e v' hv hserved hhandled => (hdone hv hserved hhandled).sound
    · exact sound_empty
  refine ⟨hv.accounted, fun e => ⟨⟨?_, ?_⟩, ?_⟩⟩
  · intro hserved
    obtain ⟨v', hhandled, hkept⟩ := handles_of_served hv hserved
    exact ⟨v', hhandled, hkept.sound.accounted⟩
  · rintro ⟨v', hhandled, haccounted⟩
    by_contra hserved
    exact lost_of_not_served hv hserved hhandled haccounted
  · intro v' hserved hhandled
    have hkept := hdone hv hserved hhandled
    exact ⟨hkept.unrefs, hkept.slots, hkept.lookups⟩

/-- A name comes and goes. -/
theorem vhost_table_holds_one : (⟨none, none, [⟨7, 0⟩], [0]⟩ : Vhosts).Accounted := by
  have hadd : empty.Handles (.add plainName false (some 7) enoughAllocs)
      ⟨some (.leaf plainName (some 0)), none, [⟨7, 1⟩], []⟩ := rfl
  have hdel : Handles ⟨some (.leaf plainName (some 0)), none, [⟨7, 1⟩], []⟩ (.del plainName false)
      ⟨none, none, [⟨7, 0⟩], [0]⟩ := rfl
  have hserved : empty.Served (.add plainName false (some 7) enoughAllocs) := fun _ _ _ =>
    ⟨⟨Or.inr nofun, fun _ _ h => nomatch h⟩, Or.inr ⟨rfl, rfl, Or.inl rfl⟩⟩
  have hserved' : Served ⟨some (.leaf plainName (some 0)), none, [⟨7, 1⟩], []⟩ (.del plainName false) :=
    fun _ _ => List.mem_singleton_self _
  have hrun : GuardedRun Handles Served empty _ _ := .cons hserved hadd (.cons hserved' hdel (.start _))
  exact (vhost_table_holds hrun).1

/-- Where a file is no webroot, its name goes again, and what is given back is no webroot of the table. -/
theorem vhost_never_held : empty.Handles (.add plainName false none enoughAllocs) empty ∧
    empty.vhostDel plainName false = .error .undefined := ⟨rfl, rfl⟩

end Vhosts
end Ashttpd
