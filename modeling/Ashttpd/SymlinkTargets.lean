import Ashttpd.Mkroot

/-!
# The buffer a symbolic link is read into (`mkroot.c`)

`readlink` puts no terminator behind the text of a link, and `scan_item` puts none there either. The
string that is spliced to the directory ends where what was in the buffer before has a NUL.
-/
namespace Ashttpd

/-- Up to where it has no NUL a memory reads as the bytes it holds, and then on. -/
theorem Mem.cstr_append {m : Mem} {t : Bytes} {p : ℕ} (hcontent : m.slice p t.length = t) (hnul : 0 ∉ t)
    (fuel : ℕ) : m.cstr (t.length + fuel) p = t ++ m.cstr fuel (p + t.length) := by
  induction t generalizing p with
  | nil => rw [List.length_nil, Nat.zero_add, List.nil_append, Nat.add_zero]
  | cons c t ih =>
    rw [List.length_cons, Mem.slice_succ, List.cons.injEq] at hcontent
    obtain ⟨hc, hrest⟩ := hcontent
    rw [List.mem_cons, not_or] at hnul
    have hne : m p ≠ 0 := by
      rw [hc]
      exact fun h => hnul.1 h.symm
    have hfuel : (c :: t).length + fuel = t.length + fuel + 1 := by
      rw [List.length_cons]
      omega
    have hplace : p + (c :: t).length = p + 1 + t.length := by
      rw [List.length_cons]
      omega
    rw [hfuel, Mem.cstr, if_neg hne, ih hrest hnul.2, hc, hplace, List.cons_append]

end Ashttpd

namespace Ashttpd.Mkroot

/-- The size of the buffer for `readlink`. -/
def SYMBUF : ℕ := 16384

/-- The buffer after `readlink` of a link with this text. -/
def readlinkInto (buf : Mem) (text : Bytes) : Mem := buf.store 0 (text.take SYMBUF)

/-- The buffer as a string, unless it is read past its end. -/
def symbufStr (buf : Mem) : Except Fault Bytes :=
  let s := buf.cstr SYMBUF 0
  if s.length < SYMBUF then .ok s else .error .outOfRange

/-- What `scan_item` does with a symbolic link, whose text `readlink` may not tell, when this is in
its buffer before. -/
def scanLink (buf : Mem) (text : Option Bytes) (r : Webroot) (dir u : Bytes) : Except Fault (Option Webroot) :=
  match text with
  | none => .ok none
  | some text =>
    match symbufStr (readlinkInto buf text) with
    | .error f => .error f
    | .ok lnk =>
      let (r, obj) := objRedirect r (pathSplice dir lnk)
      .ok (some (webrootLink r u obj))

/-- `scanItem` is told the string by its file system. -/
theorem scanItem_link {fs : FileSystem} {r : Webroot} {dir u : Bytes} {st : Stat} {buf : Mem} {text lnk : Bytes}
    (depth : ℕ) (hstat : fs.lstat (webrootLookup r u) = .ok st) (hmode : st.stMode = .lnk)
    (hread : fs.readlink (webrootLookup r u) = some lnk) (hstr : symbufStr (readlinkInto buf text) = .ok lnk) :
    scanItem fs (depth + 1) r dir u = scanLink buf (some text) r dir u := by
  simp only [scanItem, hstat, hmode, hread, scanLink, hstr]

/-- The link is recorded as a redirect to this target. -/
def RecordsTarget (buf : Mem) (text : Bytes) (r : Webroot) (dir u target : Bytes) : Prop :=
  ∃ r', scanLink buf (some text) r dir u = .ok (some r') ∧
    r'.rRedirect = r.rRedirect ++ [⟨some target, 0⟩] ∧
    r'.rUri = r.rUri ++ [⟨.redirect r.rRedirect.length, if u = [] then [SLASH] else u⟩]

variable {buf : Mem} {text lnk dir target : Bytes}

theorem recordsTarget_iff (r : Webroot) (u : Bytes) : RecordsTarget buf text r dir u target ↔
    ∃ lnk, symbufStr (readlinkInto buf text) = .ok lnk ∧ pathSplice dir lnk = target := by
  cases hstr : symbufStr (readlinkInto buf text) with
  | error f =>
    simp only [RecordsTarget, scanLink, hstr]
    constructor
    · rintro ⟨r', hscan, -⟩
      cases hscan
    · rintro ⟨lnk, hlnk, -⟩
      cases hlnk
  | ok lnk =>
    simp only [RecordsTarget, scanLink, hstr]
    constructor
    · rintro ⟨r', hscan, hredirect, -⟩
      cases hscan
      have hlast := List.append_cancel_left hredirect
      simp only [List.cons.injEq, RedirectObject.mk.injEq, Option.some.injEq, and_true] at hlast
      exact ⟨lnk, rfl, hlast⟩
    · rintro ⟨lnk', hlnk, htarget⟩
      cases hlnk
      rw [← htarget]
      exact ⟨_, rfl, rfl, rfl⟩

/-- The string in the buffer is the text of the link and what is left of the buffer behind it. -/
theorem cstr_readlinkInto (buf : Mem) (hnul : 0 ∉ text) (hshort : text.length < SYMBUF) :
    (readlinkInto buf text).cstr SYMBUF 0 = text ++ buf.cstr (SYMBUF - text.length) text.length := by
  have hall : text.take SYMBUF = text := List.take_of_length_le (Nat.le_of_lt hshort)
  have hcontent : (readlinkInto buf text).slice 0 text.length = text := by
    rw [readlinkInto, hall]
    exact Mem.slice_store_same buf 0 text
  have hbehind : ∀ fuel p, text.length ≤ p → (readlinkInto buf text).cstr fuel p = buf.cstr fuel p := by
    intro fuel
    induction fuel with
    | zero => exact fun _ _ => rfl
    | succ fuel ih =>
      intro p hp
      have hsame : readlinkInto buf text p = buf p := by
        rw [readlinkInto, hall]
        exact Mem.store_after buf 0 text (by omega)
      rw [Mem.cstr, Mem.cstr, hsame, ih (p + 1) (by omega)]
  have happend := Mem.cstr_append hcontent hnul (SYMBUF - text.length)
  rwa [Nat.add_sub_cancel' (Nat.le_of_lt hshort), Nat.zero_add, hbehind _ text.length (Nat.le_refl _)] at happend

def residue (buf : Mem) (text : Bytes) : Bytes := buf.cstr (SYMBUF - text.length) text.length

theorem residue_eq_nil_iff (hshort : text.length < SYMBUF) : residue buf text = [] ↔ buf text.length = 0 := by
  obtain ⟨fuel, hfuel⟩ : ∃ fuel, SYMBUF - text.length = fuel + 1 := ⟨SYMBUF - text.length - 1, by omega⟩
  rw [residue, hfuel, Mem.cstr]
  split <;> simp [*]

/-- More text behind a path is seen in what is spliced, unless the path is empty and the slash that
would have been put between comes with the text. -/
theorem pathSplice_append_iff (dir text rest : Bytes) : pathSplice dir (text ++ rest) = pathSplice dir text ↔
    rest = [] ∨ text = [] ∧ dir.getLast? ≠ some SLASH ∧ rest = [SLASH] := by
  constructor
  · intro heq
    cases text with
    | cons c text =>
      have hbehind : pathSplice dir (c :: text ++ rest) = pathSplice dir (c :: text) ++ rest := by
        have hhead : (c :: text ++ rest).head? = (c :: text).head? := rfl
        unfold pathSplice
        by_cases hslash : dir.getLast? = some SLASH ∨ (c :: text).head? = some SLASH
        · rw [if_pos hslash, if_pos (by rwa [hhead]), List.append_assoc]
        · rw [if_neg hslash, if_neg (by rwa [hhead]), List.append_assoc]
          rfl
      rw [hbehind, List.append_right_eq_self] at heq
      exact .inl heq
    | nil =>
      cases rest with
      | nil => exact .inl rfl
      | cons c rest =>
        simp only [pathSplice, List.nil_append, List.head?_cons, List.head?_nil, Option.some.injEq, reduceCtorEq,
          or_false] at heq
        by_cases hdir : dir.getLast? = some SLASH
        · simp [hdir] at heq
        · by_cases hc : c = SLASH
          · simp only [hdir, hc, or_true, if_true, if_false, List.append_cancel_left_eq, List.cons.injEq, true_and] at heq
            exact .inr ⟨rfl, hdir, by rw [hc, heq]⟩
          · simp [hdir, hc] at heq
  · rintro (rfl | ⟨rfl, hdir, rfl⟩)
    · rw [List.append_nil]
    · simp [pathSplice, hdir]

/-- A link is recorded with its own text exactly if the buffer already had a NUL behind the text, or,
for an empty text, a slash and a NUL in the place of the slash that `path_splice` puts there. -/
theorem symlink_target_iff {text : Bytes} (hnul : 0 ∉ text) (hshort : text.length < SYMBUF) (buf : Mem) (r : Webroot)
    (dir u : Bytes) : RecordsTarget buf text r dir u (pathSplice dir text) ↔
      buf text.length = 0 ∨ text = [] ∧ dir.getLast? ≠ some SLASH ∧ buf 0 = SLASH ∧ buf 1 = 0 := by
  have hstr := cstr_readlinkInto buf hnul hshort
  have hsize : SYMBUF = 16384 := rfl
  rw [recordsTarget_iff, ← residue_eq_nil_iff hshort]
  constructor
  · rintro ⟨lnk, hread, hsplice⟩
    unfold symbufStr at hread
    dsimp only at hread
    split at hread
    · cases hread
      rw [hstr] at hsplice
      rcases (pathSplice_append_iff dir text _).mp hsplice with hnone | ⟨htext, hdir, hslash⟩
      · exact .inl hnone
      · subst htext
        have hcells : Mem.cstr buf (16382 + 1 + 1) 0 = [SLASH] := hslash
        rw [Mem.cstr] at hcells
        split at hcells
        · cases hcells
        · next h0 =>
          rw [Mem.cstr, List.cons.injEq] at hcells
          obtain ⟨hfirst, hsecond⟩ := hcells
          split at hsecond
          · next h1 => exact .inr ⟨rfl, hdir, hfirst, h1⟩
          · cases hsecond
    · cases hread
  · rintro (hnone | ⟨rfl, hdir, h0, h1⟩)
    · refine ⟨text, ?_, rfl⟩
      unfold residue at hnone
      rw [hnone, List.append_nil] at hstr
      unfold symbufStr
      rw [hstr]
      exact if_pos hshort
    · have hcells : Mem.cstr buf SYMBUF 0 = [SLASH] := by
        show Mem.cstr buf (16382 + 1 + 1) 0 = [SLASH]
        have hne : ¬ buf 0 = 0 := by
          rw [h0]
          decide
        rw [Mem.cstr, if_neg hne, Mem.cstr, if_pos h1, h0]
      refine ⟨[SLASH], ?_, ?_⟩
      · have hread : (readlinkInto buf []).cstr SYMBUF 0 = [SLASH] := by
          rw [hstr, List.nil_append]
          exact hcells
        unfold symbufStr
        rw [hread]
        exact if_pos (by decide)
      · exact (pathSplice_append_iff dir [] [SLASH]).mpr (.inr ⟨rfl, hdir, rfl⟩)

theorem symlink_target_iff_clean : RecordsTarget (fun _ => 0) (ascii "b") (webrootNew []) [] (ascii "/a")
    (pathSplice [] (ascii "b")) ↔ (0 : UInt8) = 0 ∨
      ascii "b" = [] ∧ ([] : Bytes).getLast? ≠ some SLASH ∧ (0 : UInt8) = SLASH ∧ (0 : UInt8) = 0 :=
  symlink_target_iff (by decide) (by decide) (fun _ => 0) (webrootNew []) [] (ascii "/a")

/-- The text of a link that was read before is still in the buffer. -/
theorem symlink_keeps_residue : ¬ ∀ buf text r dir u, 0 ∉ text → text.length < SYMBUF →
    RecordsTarget buf text r dir u (pathSplice dir text) := by
  intro hall
  have hrec := hall (readlinkInto (fun _ => 0) (ascii "abcd")) (ascii "x") (webrootNew []) [] (ascii "/l") (by decide)
    (by decide)
  have hcase := (symlink_target_iff (by decide) (by decide) _ _ _ _).mp hrec
  revert hcase
  decide

end Ashttpd.Mkroot
