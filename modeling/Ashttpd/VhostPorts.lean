import Ashttpd.CritBitDelete
import Ashttpd.NumericHeaders
import Ashttpd.Responding
import Ashttpd.Site

/-!
# Virtual hosts and ports

`http_req` splits a host into a name and a port, but what `handle_get` looks up is the host as it came.
So a request that tells the port is taken to be for another host, which the table may know or not.
-/
namespace Ashttpd

namespace Vhosts

variable {v v' : Vhosts}

theorem webrootUnref_vhosts {w : Option ℕ} (hok : v.webrootUnref w = .ok v') : v'.vhosts = v.vhosts := by
  unfold webrootUnref at hok
  split at hok
  · cases hok
    rfl
  · split at hok
    · cases hok
    · split at hok
      · cases hok
      · cases hok
        rfl

theorem addName_sound {name : CStr} {w : ℕ} {a : Allocs} (hv : v.vhosts.Sound) (hok : v.addName name w a = .ok v') :
    v'.vhosts.Sound := by
  have hsound : ∀ {t' : CbTree ℕ} {r : CbResult ℕ},
      v.vhosts.call (.insert name a (some w)) = .ok (t', r) → t'.Sound := by
    intro t' r hcall
    have hcalled : v.vhosts.Called (.insert name a (some w), r) t' := hcall
    obtain ⟨t'', r', hcall', hdone⟩ := (call_done_iff hv _).1 (hcalled.tame hv)
    cases hcall.symm.trans hcall'
    exact hdone.sound
  unfold addName at hok
  unfold CbTree.call at hsound
  simp only at hsound
  cases hins : cbInsert v.vhosts name a with
  | error f =>
    rw [hins] at hok
    cases hok
  | ok r =>
    rw [hins] at hok
    simp only [hins, ok_bind] at hsound
    obtain ⟨ret, tree, slot⟩ := r
    simp only [ok_bind] at hok
    cases tree with
    | none =>
      cases hok
      exact trivial
    | some n =>
      cases slot with
      | none =>
        cases hok
        exact hsound rfl
      | some slot =>
        dsimp only at hok
        cases hunref : webrootUnref { v with vhosts := some n } ((n.value slot).getD none) with
        | error f =>
          rw [hunref] at hok
          cases hok
        | ok v₁ =>
          rw [hunref] at hok
          cases hok
          exact hsound rfl

theorem Handles.tree_sound {e : VhostEvent} (hv : v.vhosts.Sound) (hok : v.Handles e v') : v'.vhosts.Sound := by
  cases e with
  | add name isdir file a =>
    have hadd : v.vhostAdd name isdir file a = .ok v' := hok
    unfold vhostAdd at hadd
    split at hadd
    · cases hadd
      exact hv
    · cases file with
      | none =>
        cases hadd
        exact hv
      | some file =>
        dsimp only at hadd
        split at hadd
        · cases hunref : (v.webrootOpen file).webrootUnref (v.webrootOpen file).vdefault with
          | error f =>
            rw [hunref] at hadd
            cases hadd
          | ok v₁ =>
            rw [hunref] at hadd
            cases hadd
            show v₁.vhosts.Sound
            rw [webrootUnref_vhosts hunref]
            exact hv
        · exact addName_sound (v := v.webrootOpen file) hv hadd
  | del name isdir =>
    have hdel : v.vhostDel name isdir = .ok v' := hok
    unfold vhostDel at hdel
    split at hdel
    · cases hdel
      exact hv
    · split at hdel
      · cases hunref : v.webrootUnref v.vdefault with
        | error f =>
          rw [hunref] at hdel
          cases hdel
        | ok v₁ =>
          rw [hunref] at hdel
          cases hdel
          show v₁.vhosts.Sound
          rw [webrootUnref_vhosts hunref]
          exact hv
      · dsimp only at hdel
        cases hval : (cbDelete v.vhosts name).val with
        | none =>
          rw [hval] at hdel
          cases hdel
        | some w =>
          rw [hval] at hdel
          rw [webrootUnref_vhosts hdel]
          exact (CbTree.wellFormed_iff _).mp (cb_delete_wellFormed _ ((CbTree.wellFormed_iff _).mpr hv) name).wellFormed

theorem wellFormed_of_run {events : List VhostEvent} (hrun : Run Handles empty events v) : v.vhosts.WellFormed := by
  apply (CbTree.wellFormed_iff _).mpr
  apply hrun.invariant (I := fun _ v => v.vhosts.Sound)
  · exact fun _ v e v' hv _ hhandled => Handles.tree_sound hv hhandled
  · exact trivial

end Vhosts

def setHost (host : Bytes) (fields : List (Bytes × Bytes)) : List (Bytes × Bytes) :=
  fields.map fun kv => if SameText kv.1 labelHost then (kv.1, host) else kv

/-- The same head for another host. -/
def ReqHead.withHost (head : ReqHead) (host : Bytes) (hhost : IsField (labelHost, host)) : ReqHead where
  method := head.method
  uri := head.uri
  version := head.version
  fields := setHost host head.fields
  methodWord := head.methodWord
  uriWord := head.uriWord
  versionWord := head.versionWord
  fieldsOk := by
    intro kv hkv
    obtain ⟨kv, hmem, rfl⟩ := List.mem_map.mp hkv
    have hkv := head.fieldsOk kv hmem
    split
    · exact ⟨hkv.noColon, hkv.nameNoLf, hhost.noSpace, hhost.noCr, hhost.noLf⟩
    · exact hkv

theorem lastValue_setHost {fields : List (Bytes × Bytes)} (hfields : ∃ kv ∈ fields, SameText kv.1 labelHost)
    (host : Bytes) : lastValue labelHost (setHost host fields) = some host := by
  obtain ⟨kv, hkv, hlabel⟩ := hfields
  have hmem : (kv.1, host) ∈ (setHost host fields).filter fun kv => SameText kv.1 labelHost := by
    apply List.mem_filter.mpr
    refine ⟨List.mem_map.mpr ⟨kv, hkv, if_pos hlabel⟩, ?_⟩
    simpa using hlabel
  unfold lastValue
  cases hlast : ((setHost host fields).filter fun kv => SameText kv.1 labelHost).getLast? with
  | none =>
    rw [List.getLast?_eq_none_iff.mp hlast] at hmem
    cases hmem
  | some kv' =>
    obtain ⟨hset, hlabel'⟩ := List.mem_filter.mp (List.mem_of_getLast? hlast)
    obtain ⟨kv₀, -, rfl⟩ := List.mem_map.mp hset
    by_cases hsame : SameText kv₀.1 labelHost
    · rw [if_pos hsame]
      rfl
    · rw [if_neg hsame] at hlabel'
      exact absurd (by simpa using hlabel') hsame

/-- A port behind a host. -/
theorem IsField.withPort {host port : Bytes} (hhost : IsField (labelHost, host)) (hport : AllDigits port) :
    IsField (labelHost, host ++ COLON :: port) := by
  have hdigit : ∀ c ∈ port, isdigit c = true := fun c hc => List.mem_takeWhile_imp (hport.2 ▸ hc)
  have hnot : ∀ c, c = COLON ∨ c ∈ port → c ≠ SP ∧ c ≠ CR ∧ c ≠ LF := by
    rintro c (rfl | hc)
    · decide
    · have hc := hdigit c hc
      refine ⟨?_, ?_, ?_⟩
      · rintro rfl
        exact absurd hc (by decide)
      · rintro rfl
        exact absurd hc (by decide)
      · rintro rfl
        exact absurd hc (by decide)
  have hmem : ∀ c, c ∈ host ++ COLON :: port → c ∈ host ∨ c ≠ SP ∧ c ≠ CR ∧ c ≠ LF := by
    intro c hc
    rcases List.mem_append.mp hc with hc | hc
    · exact Or.inl hc
    · exact Or.inr (hnot c (List.mem_cons.mp hc))
  refine ⟨hhost.noColon, hhost.nameNoLf, ?_, ?_, ?_⟩
  · cases host with
    | nil => exact fun h => absurd (Option.some.inj h) (by decide)
    | cons c host => exact hhost.noSpace
  · intro hc
    rcases hmem _ hc with hc | hc
    · exact hhost.noCr hc
    · exact hc.2.1 rfl
  · intro hc
    rcases hmem _ hc with hc | hc
    · exact hhost.noLf hc
    · exact hc.2.2 rfl

/-- `hbuf` of `handle_get`: the host up to the first terminator in it. -/
def hostBuf (host : Bytes) : CStr := ⟨untilNul host, fun h => absurd (List.mem_takeWhile_imp h) (by decide)⟩

/-- The webroot that `handle_get` finds for the request at the start of a buffer. -/
def Vhosts.resolved (v : Vhosts) (p sockname : Bytes) : Option ℕ :=
  v.vhostsLookup (hostBuf (HttpConn.defaultHost (httpReq {} p).2 sockname).host.bytes)

/-- This is what the server hands to `handle_get`. -/
theorem Site.server_vhostsLookup (roots : Webroots) (fio : Fio) (t : Site) (host : Bytes) :
    (t.server roots fio).vhostsLookup (untilNul host) = t.vhosts.vhostsLookup (hostBuf host) :=
  dif_pos (hostBuf host).noNul

def hostKey (host sockname : Bytes) : CStr := hostBuf (if host = [] then sockname else host)

theorem resolved_withHost (v : Vhosts) {head : ReqHead} (hhead : ∃ kv ∈ head.fields, SameText kv.1 labelHost)
    {host : Bytes} (hhost : IsField (labelHost, host)) (rest sockname : Bytes) :
    v.resolved ((head.withHost host hhost).text ++ rest) sockname = v.vhostsLookup (hostKey host sockname) := by
  obtain ⟨r, hreq, -, -, hbytes, -⟩ := httpReq_head (head.withHost host hhost) rest
  have hlast : lastValue labelHost (head.withHost host hhost).fields = some host := lastValue_setHost hhead host
  rw [hlast, Option.getD_some] at hbytes
  unfold Vhosts.resolved hostKey HttpConn.defaultHost
  rw [hreq]
  have hempty : r.host.vLen = 0 ↔ host = [] := by
    rw [← hbytes]
    exact List.length_eq_zero_iff
  by_cases hnone : host = []
  · rw [if_pos (hempty.mpr hnone), if_pos hnone]
  · rw [if_neg fun h => hnone (hempty.mp h), if_neg hnone, hbytes]

/-- Two names that a table has the same webroot for. -/
inductive Vhosts.Indifferent (v : Vhosts) (k k' : CStr) : Prop
  | neither (hk : k ∉ v.vhosts.keys) (hk' : k' ∉ v.vhosts.keys)
  | both {w : Option ℕ} (hk : (k, w) ∈ v.vhosts.entries) (hk' : (k', w) ∈ v.vhosts.entries)
  | onlyFirst (hk : (k, v.vdefault) ∈ v.vhosts.entries) (hk' : k' ∉ v.vhosts.keys)
  | onlySecond (hk : k ∉ v.vhosts.keys) (hk' : (k', v.vdefault) ∈ v.vhosts.entries)

theorem Vhosts.lookup_eq_iff {v : Vhosts} (hv : v.vhosts.WellFormed) (k k' : CStr) :
    v.vhostsLookup k = v.vhostsLookup k' ↔ v.Indifferent k k' := by
  have hsound := (CbTree.wellFormed_iff _).mp hv
  have hnone : ∀ k, cbContains v.vhosts k = none ↔ k ∉ v.vhosts.keys := by
    intro k
    rw [keys_eq_entries]
    exact cbContains_eq_none_iff hsound
  have hfound : ∀ {k w}, (k, w) ∈ v.vhosts.entries → v.vhostsLookup k = w := by
    intro k w hk
    unfold vhostsLookup
    rw [(cbContains_iff hsound).mpr hk]
  have hmissing : ∀ {k}, k ∉ v.vhosts.keys → v.vhostsLookup k = v.vdefault := by
    intro k hk
    unfold vhostsLookup
    rw [(hnone k).mpr hk]
  constructor
  · intro heq
    cases hk : cbContains v.vhosts k with
    | none =>
      have hkey := (hnone k).mp hk
      rw [hmissing hkey] at heq
      cases hk' : cbContains v.vhosts k' with
      | none => exact .neither hkey ((hnone k').mp hk')
      | some w =>
        have hentry := (cbContains_iff hsound).mp hk'
        rw [hfound hentry] at heq
        exact .onlySecond hkey (heq ▸ hentry)
    | some w =>
      have hentry := (cbContains_iff hsound).mp hk
      rw [hfound hentry] at heq
      cases hk' : cbContains v.vhosts k' with
      | none =>
        have hkey' := (hnone k').mp hk'
        rw [hmissing hkey'] at heq
        exact .onlyFirst (heq ▸ hentry) hkey'
      | some w' =>
        have hentry' := (cbContains_iff hsound).mp hk'
        rw [hfound hentry'] at heq
        exact .both hentry (heq ▸ hentry')
  · rintro (⟨hk, hk'⟩ | ⟨hk, hk'⟩ | ⟨hk, hk'⟩ | ⟨hk, hk'⟩)
    · rw [hmissing hk, hmissing hk']
    · rw [hfound hk, hfound hk']
    · rw [hfound hk, hmissing hk']
    · rw [hmissing hk, hfound hk']

/-- A request is looked up in the same webroot with a port and without one exactly when the table makes no
difference between the host and the host with the port. -/
theorem vhost_port_ignored_iff (v : Vhosts) (hv : v.vhosts.WellFormed) (head : ReqHead)
    (hhead : ∃ kv ∈ head.fields, SameText kv.1 labelHost) (host port : Bytes)
    (hhost : IsField (labelHost, host)) (hport : AllDigits port) (rest sockname : Bytes) :
    v.resolved ((head.withHost host hhost).text ++ rest) sockname =
        v.resolved ((head.withHost (host ++ COLON :: port) (hhost.withPort hport)).text ++ rest) sockname ↔
      v.Indifferent (hostKey host sockname) (hostKey (host ++ COLON :: port) sockname) := by
  rw [resolved_withHost v hhead, resolved_withHost v hhead]
  exact Vhosts.lookup_eq_iff hv _ _

theorem plainField : IsField (labelHost, plainName.bytes) := ⟨by decide, by decide, by decide, by decide, by decide⟩

theorem plainPort : AllDigits [56, 48, 56, 48] := by decide

theorem plainAdded : Run Vhosts.Handles .empty [.add plainName false (some 7) enoughAllocs]
    ⟨some (.leaf plainName (some 0)), none, [⟨7, 1⟩], []⟩ := .cons trivial rfl (.start _)

theorem vhost_port_ignored_iff_plain : ∃ v, Run Vhosts.Handles .empty [.add plainName false (some 7) enoughAllocs] v ∧
    (v.resolved (((hostHead _ plainField).withHost _ plainField).text ++ []) [] =
        v.resolved (((hostHead _ plainField).withHost (plainName.bytes ++ COLON :: [56, 48, 56, 48])
          (plainField.withPort plainPort)).text ++ []) [] ↔
      v.Indifferent (hostKey plainName.bytes []) (hostKey (plainName.bytes ++ COLON :: [56, 48, 56, 48]) [])) :=
  ⟨_, plainAdded, vhost_port_ignored_iff _ (Vhosts.wellFormed_of_run plainAdded) (hostHead _ plainField)
    ⟨_, List.mem_singleton_self _, rfl⟩ _ _ plainField plainPort [] []⟩

/-- The only name of a table is not found when the port is told. -/
theorem vhost_port_noticed : ∃ v, Run Vhosts.Handles .empty [.add plainName false (some 7) enoughAllocs] v ∧
    v.resolved ((hostHead _ plainField).withHost _ plainField).text [] = some 0 ∧
    v.resolved ((hostHead _ plainField).withHost (plainName.bytes ++ COLON :: [56, 48, 56, 48])
      (plainField.withPort plainPort)).text [] = none := by
  refine ⟨_, plainAdded, ?_, ?_⟩
  · rfl
  · rfl

end Ashttpd
