import Ashttpd.VhostWatch

/-!
# The table follows the directory

If the directory is as the scan found it when it comes to be watched, then every name whose
webroot is not the one that it is bound to has a notice in the queue, and the last one tells
whether the name is bound.
-/
namespace Ashttpd

namespace Notice

/-- The name in a notice. -/
def name : Notice → CStr
  | create name => name
  | delete name => name
  | movedFrom name => name
  | movedTo name => name

/-- Whether a notice tells that its name is bound. -/
def binds : Notice → Bool
  | create _ => true
  | delete _ => false
  | movedFrom _ => false
  | movedTo _ => true

end Notice

def noticesFor (queue : List Notice) (name : CStr) : List Notice := queue.filter fun n => n.name = name

def Told (queue : List Notice) (dir : CStr → Option ℕ) : Prop :=
  ∀ name n, (noticesFor queue name).getLast? = some n → (n.binds ↔ dir name ≠ none)

section Told

variable {queue : List Notice} {dir : CStr → Option ℕ} {name : CStr} {n : Notice}

theorem noticesFor_append (queue more : List Notice) (name : CStr) :
    noticesFor (queue ++ more) name = noticesFor queue name ++ noticesFor more name := List.filter_append _ _

/-- A change of one name with its notice. -/
theorem Told.update (h : Told queue dir) (file : Option ℕ) (hn : n.name = name)
    (hbinds : n.binds ↔ file ≠ none) : Told (queue ++ [n]) (Function.update dir name file) := by
  intro k m hm
  rw [noticesFor_append] at hm
  by_cases hk : k = name
  · subst hk
    rw [show noticesFor [n] k = [n] from List.filter_cons_of_pos (decide_eq_true hn), List.getLast?_concat] at hm
    cases hm
    rw [Function.update_self]
    exact hbinds
  · have hne : ¬ n.name = k := fun h => hk (h.symm.trans hn)
    rw [show noticesFor [n] k = [] from List.filter_cons_of_neg (by simpa using hne), List.append_nil] at hm
    rw [Function.update_of_ne hk]
    exact h k m hm

theorem Told.change (h : Told queue dir) (c : DirChange) (hc : c.Possible dir) :
    Told (queue ++ c.notices) (c.apply dir) := by
  cases c with
  | link name file => exact h.update (some file) rfl (by simp [Notice.binds])
  | unlink name => exact h.update none rfl (by simp [Notice.binds])
  | moveIn name file => exact h.update (some file) rfl (by simp [Notice.binds])
  | moveOut name => exact h.update none rfl (by simp [Notice.binds])
  | rename old new =>
    have hold := h.update (n := .movedFrom old) none rfl (by simp [Notice.binds])
    have hnew := hold.update (n := .movedTo new) (dir old) rfl (by simp [Notice.binds, hc.1])
    rwa [List.append_assoc] at hnew

/-- A change without a notice for a name leaves it alone. -/
theorem apply_of_no_notice {c : DirChange} (dir : CStr → Option ℕ) (h : noticesFor c.notices name = []) :
    c.apply dir name = dir name := by
  have hne : ∀ n ∈ c.notices, name ≠ n.name := by
    intro n hn hname
    have hmem : n ∈ noticesFor c.notices name := List.mem_filter.mpr ⟨hn, decide_eq_true hname.symm⟩
    rw [h] at hmem
    cases hmem
  cases c with
  | link k file => exact Function.update_of_ne (hne _ (List.mem_singleton_self _)) _ _
  | unlink k => exact Function.update_of_ne (hne _ (List.mem_singleton_self _)) _ _
  | moveIn k file => exact Function.update_of_ne (hne _ (List.mem_singleton_self _)) _ _
  | moveOut k => exact Function.update_of_ne (hne _ (List.mem_singleton_self _)) _ _
  | rename old new =>
    have hold : name ≠ old := hne (.movedFrom old) List.mem_cons_self
    have hnew : name ≠ new := hne (.movedTo new) (List.mem_cons_of_mem _ (List.mem_singleton_self _))
    show Function.update (Function.update dir old none) new (dir old) name = dir name
    rw [Function.update_of_ne hnew, Function.update_of_ne hold]

theorem Told.tail (h : Told (n :: queue) dir) : Told queue dir := by
  intro k m hm
  apply h k m
  unfold noticesFor at hm ⊢
  rw [List.filter_cons]
  split
  · rw [List.getLast?_cons, hm]
    rfl
  · exact hm

theorem Told.head (h : Told (n :: queue) dir) (hlast : noticesFor queue n.name = []) :
    n.binds ↔ dir n.name ≠ none := by
  apply h n.name n
  unfold noticesFor at hlast ⊢
  rw [List.filter_cons_of_pos (by simp), hlast]
  rfl

end Told

namespace DirWorld

variable {w w' : DirWorld} {v v' : Vhosts} {name : CStr} {a : Allocs}

def shown (v : Vhosts) (name : CStr) : Option ℕ := fileOf v (v.slot name)

/-- Between two steps, the table shows what the scan found, and later what the directory has, except for names
with notices. -/
structure Following (w : DirWorld) : Prop where
  sound : w.table.Sound
  scan : w.startup ≠ .watching → w.queue = [] ∧ shown w.table = w.found
  told : w.startup = .watching → Told w.queue w.dir
  shows : w.startup = .watching → ∀ name, noticesFor w.queue name = [] → shown w.table name = w.dir name

theorem shown_of_changed {x : Option ℕ} {more : List ℕ} (hv : v.Sound) (h : Vhosts.Changed v name x v')
    (hfiles : v'.files = v.files ++ more) :
    shown v' = Function.update (shown v) name (fileOf v' x) := by
  funext k
  unfold shown
  rw [h.slot]
  by_cases hk : k = name
  · subst hk
    rw [Function.update_self, Function.update_self]
  · rw [Function.update_of_ne hk, Function.update_of_ne hk]
    cases hslot : v.slot k with
    | none => rfl
    | some i =>
      have hlt := hv.owned.opened k i hslot
      have hlt' : i < v.files.length := by
        unfold Vhosts.counts at hlt
        unfold Vhosts.files
        rwa [List.length_map] at hlt ⊢
      show v'.files[i]? = v.files[i]?
      rw [hfiles, List.getElem?_append_left hlt']

/-- What an event that adds a name does to what the table shows. -/
theorem shown_add (hv : v.Sound) {file : Option ℕ} (hserved : v.Served (.add name false file a))
    (hadd : v.vhostAdd name false file a = .ok v') :
    v'.Sound ∧ shown v' = if file = none then shown v else Function.update (shown v) name file := by
  cases file with
  | none =>
    cases hadd
    exact ⟨hv, rfl⟩
  | some file =>
    obtain ⟨v'', hadd', hchanged, hfiles⟩ := Vhosts.vhostAdd_spec hv hserved
    cases hadd.symm.trans hadd'
    refine ⟨hchanged.sound, ?_⟩
    rw [shown_of_changed hv hchanged hfiles, if_neg (Option.some_ne_none file)]
    have hlen : v.roots.length = v.files.length := (List.length_map _).symm
    have hnew : fileOf v' (some v.roots.length) = some file := by
      show v'.files[v.roots.length]? = some file
      rw [hfiles, hlen, List.getElem?_concat_length]
    rw [hnew]

theorem shown_del (hv : v.Sound) (hserved : v.Served (.del name false))
    (hdel : v.vhostDel name false = .ok v') :
    v'.Sound ∧ shown v' = Function.update (shown v) name none := by
  obtain ⟨v'', hdel', hchanged, hfiles⟩ := Vhosts.vhostDel_spec hv hserved
  cases hdel.symm.trans hdel'
  refine ⟨hchanged.sound, ?_⟩
  rw [shown_of_changed hv hchanged (hfiles.trans (List.append_nil _).symm)]
  rfl

/-- A notice that is handled: if its name has no other, the table shows what the directory has for it. -/
theorem shown_handle {n : Notice} (hv : v.Sound) {dir : CStr → Option ℕ} (hserved : v.Served (n.event dir a))
    (hhandled : v.Handles (n.event dir a) v') :
    v'.Sound ∧ (∀ k, k ≠ n.name → shown v' k = shown v k) ∧
      ((n.binds ↔ dir n.name ≠ none) → shown v' n.name = dir n.name) := by
  have hadd : ∀ k, v.Served (.add k false (dir k) a) → v.vhostAdd k false (dir k) a = .ok v' →
      v'.Sound ∧ (∀ l, l ≠ k → shown v' l = shown v l) ∧ (dir k ≠ none → shown v' k = dir k) := by
    intro k hserved hrun
    obtain ⟨hsound, hshown⟩ := shown_add hv hserved hrun
    refine ⟨hsound, ?_, ?_⟩
    · intro l hl
      rw [hshown]
      split
      · rfl
      · rw [Function.update_of_ne hl]
    · intro hbound
      rw [hshown, if_neg hbound, Function.update_self]
  have hdel : ∀ k, v.Served (.del k false) → v.vhostDel k false = .ok v' →
      v'.Sound ∧ (∀ l, l ≠ k → shown v' l = shown v l) ∧ (dir k = none → shown v' k = dir k) := by
    intro k hserved hrun
    obtain ⟨hsound, hshown⟩ := shown_del hv hserved hrun
    refine ⟨hsound, ?_, ?_⟩
    · intro l hl
      rw [hshown, Function.update_of_ne hl]
    · intro hbound
      rw [hshown, Function.update_self, hbound]
  cases n with
  | create k =>
    obtain ⟨hsound, hother, hsame⟩ := hadd k hserved hhandled
    exact ⟨hsound, hother, fun h => hsame (h.mp rfl)⟩
  | movedTo k =>
    obtain ⟨hsound, hother, hsame⟩ := hadd k hserved hhandled
    exact ⟨hsound, hother, fun h => hsame (h.mp rfl)⟩
  | delete k =>
    obtain ⟨hsound, hother, hsame⟩ := hdel k hserved hhandled
    exact ⟨hsound, hother, fun h => hsame (not_not.mp fun hne => absurd (h.mpr hne) Bool.false_ne_true)⟩
  | movedFrom k =>
    obtain ⟨hsound, hother, hsame⟩ := hdel k hserved hhandled
    exact ⟨hsound, hother, fun h => hsame (not_not.mp fun hne => absurd (h.mpr hne) Bool.false_ne_true)⟩

/-- One step. -/
theorem Following.step {s : DirStep} (h : w.Following) (hfollowed : w.Followed s) (hmoves : w.Moves s w') :
    w'.Following := by
  cases hmoves with
  | change hpossible =>
    next c =>
    refine ⟨h.sound, fun hw => ?_, fun hw => ?_, fun hw => ?_⟩
    · have hqueue : (w.changed c).queue = w.queue := if_neg hw
      rw [hqueue]
      exact h.scan hw
    · have hqueue : (w.changed c).queue = w.queue ++ c.notices := if_pos hw
      rw [hqueue]
      exact (h.told hw).change c hpossible
    · intro name hnone
      have hqueue : (w.changed c).queue = w.queue ++ c.notices := if_pos hw
      rw [hqueue, noticesFor_append] at hnone
      obtain ⟨hnone, hother⟩ := List.append_eq_nil_iff.mp hnone
      exact (h.shows hw name hnone).trans (apply_of_no_notice w.dir hother).symm
  | opendir hstart => exact ⟨h.sound, fun _ => h.scan (by rw [hstart]; nofun), nofun, nofun⟩
  | entry hscan hadd =>
    obtain ⟨hqueue, hshown⟩ := h.scan (by rw [hscan]; nofun)
    obtain ⟨hsound, hshown'⟩ := shown_add h.sound hfollowed hadd
    refine ⟨hsound, fun _ => ⟨hqueue, ?_⟩, fun hw => ?_, fun hw => ?_⟩
    · rw [← hshown]
      exact hshown'
    · exact absurd (hscan.symm.trans hw) nofun
    · exact absurd (hscan.symm.trans hw) nofun
  | endScan hscan hall => exact ⟨h.sound, fun _ => h.scan (by rw [hscan]; nofun), nofun, nofun⟩
  | watch hscanned =>
    obtain ⟨hqueue, hshown⟩ := h.scan (by rw [hscanned]; nofun)
    refine ⟨h.sound, fun hw => absurd rfl hw, fun _ => ?_, fun _ name _ => ?_⟩
    · intro name n hn
      have hn : (noticesFor w.queue name).getLast? = some n := hn
      rw [hqueue] at hn
      cases hn
    · have heq := congrFun (hshown.trans hfollowed) name
      exact heq
  | handle hwatching hqueue hdispatch =>
    next n rest v =>
    have hserved := hfollowed.2 n rest hqueue
    obtain ⟨hsound, hother, hsame⟩ := shown_handle h.sound hserved hdispatch
    have htold := h.told hwatching
    have hshows := h.shows hwatching
    rw [hqueue] at htold hshows
    refine ⟨hsound, fun hw => absurd hwatching hw, fun _ => htold.tail, fun _ name hnone => ?_⟩
    by_cases hname : name = n.name
    · subst hname
      exact hsame (htold.head hnone)
    · have hnone : noticesFor rest name = [] := hnone
      refine (hother name hname).trans (hshows name ?_)
      rw [show n :: rest = [n] ++ rest from rfl, noticesFor_append, hnone, List.append_nil]
      exact List.filter_cons_of_neg (by simpa using Ne.symm hname)
  | drop hwatching hqueue => exact absurd hfollowed.1 Bool.false_ne_true

theorem following_begin (dir : CStr → Option ℕ) : (begin dir).Following := by
  refine ⟨Vhosts.sound_empty, fun _ => ⟨rfl, ?_⟩, nofun, nofun⟩
  funext name
  unfold shown
  have hslot : Vhosts.empty.slot name = none := by
    unfold Vhosts.slot
    split <;> rfl
  show fileOf Vhosts.empty (Vhosts.empty.slot name) = none
  rw [hslot]
  rfl

/-- In a run whose steps the table can follow, whenever the directory is watched and all notices are handled, looking
up a name gives the file that it is bound to, or that of the default. -/
theorem lookup_follows_directory {dir : CStr → Option ℕ} {steps : List DirStep}
    (hrun : GuardedRun Moves Followed (begin dir) steps w) (hwatching : w.startup = .watching)
    (hqueue : w.queue = []) (name : CStr) :
    fileOf w.table (w.table.vhostsLookup name) = (w.dir name).or (w.dir defaultName) := by
  have hw : w.Following := by
    apply hrun.invariant (I := fun _ w => w.Following)
    · exact fun _ w s w' hw hfollowed hmoves => hw.step hfollowed hmoves
    · exact following_begin dir
  have hshows := hw.shows hwatching
  rw [hqueue] at hshows
  have hname := hshows name rfl
  have hdefault := hshows defaultName rfl
  rw [hw.sound.vhostsLookup_eq, ← hname, ← hdefault]
  unfold shown
  cases hslot : w.table.slot name with
  | none => rfl
  | some i =>
    have hlt := hw.sound.owned.opened name i hslot
    have hlt' : i < w.table.files.length := by
      unfold Vhosts.counts at hlt
      unfold Vhosts.files
      rwa [List.length_map] at hlt ⊢
    show w.table.files[i]? = w.table.files[i]?.or _
    rw [List.getElem?_eq_getElem hlt', Option.some_or]

/-- A name is there at first and gets another file later. -/
theorem lookup_follows_replacement : ∃ w : DirWorld, w.startup = .watching ∧ w.queue = [] ∧
    fileOf w.table (w.table.vhostsLookup plainName) = some 8 := by
  have hbound : ∀ name, (if name = plainName then some 7 else none : Option ℕ) ≠ none → name = plainName := by
    intro name h
    by_contra hname
    exact h (if_neg hname)
  have hserved : Vhosts.empty.Served (.add plainName false (some 7) enoughAllocs) := fun _ _ _ =>
    ⟨⟨Or.inr nofun, fun _ _ h => nomatch h⟩, Or.inr ⟨rfl, rfl, Or.inl rfl⟩⟩
  have hserved' : Vhosts.Served ⟨some (.leaf plainName (some 0)), none, [⟨7, 1⟩], []⟩
      (.add plainName false (some 8) enoughAllocs) := by
    refine fun _ _ _ => ⟨⟨Or.inl (by decide), fun _ i _ => ?_⟩, Or.inl (List.mem_singleton_self _)⟩
    exact ⟨plainName, List.mem_singleton_self _, fun _ _ => rfl, Iff.rfl⟩
  obtain ⟨w, hrun, hwatching, hqueue, hdir⟩ : ∃ w : DirWorld,
      GuardedRun Moves Followed (begin fun name => if name = plainName then some 7 else none)
        [.opendir, .entry plainName enoughAllocs, .endScan, .watch, .change (.moveIn plainName 8),
          .handle true enoughAllocs] w ∧ w.startup = .watching ∧ w.queue = [] ∧ w.dir plainName = some 8 := by
    refine ⟨_, .cons trivial (.opendir rfl) (.cons hserved (.entry rfl rfl) (.cons trivial (.endScan rfl ?_)
      (.cons ?_ (.watch rfl) (.cons trivial (.change trivial) (.cons ?_ (.handle rfl rfl rfl) (.start _)))))),
      rfl, rfl, rfl⟩
    · intro name h
      rw [hbound name h]
      exact List.mem_singleton_self _
    · funext name
      exact Function.update_apply _ _ _ _
    · refine ⟨rfl, ?_⟩
      intro n rest hqueue
      cases hqueue
      exact hserved'
  refine ⟨w, hwatching, hqueue, ?_⟩
  rw [lookup_follows_directory hrun hwatching hqueue, hdir]
  rfl

/-- The directory gets an entry between the scan and the watch. -/
theorem entry_between_scan_and_watch : ∃ w : DirWorld, Run Moves (begin fun _ => none)
    [.opendir, .endScan, .change (.link plainName 7), .watch] w ∧ w.startup = .watching ∧ w.queue = [] ∧
      fileOf w.table (w.table.vhostsLookup plainName) = none ∧ w.dir plainName = some 7 := by
  refine ⟨_, .cons trivial (.opendir rfl) (.cons trivial (.endScan rfl ?_) (.cons trivial (.change ?_)
    (.cons trivial (.watch rfl) (.start _)))), rfl, rfl, rfl, ?_⟩
  · exact fun name h => absurd rfl h
  · exact rfl
  · show Function.update (fun _ : CStr => (none : Option ℕ)) plainName (some 7) plainName = some 7
    exact Function.update_self _ _ _

end DirWorld
end Ashttpd
