import Ashttpd.HttpConn
import Ashttpd.GuardedRuns
import Mathlib.Data.List.TakeDrop

/-!
# What can be said of a response while it is sent

The functions that the I/O models and `http_write` are made of succeed on a connection that
responds to a request, and what they add to its log is told here once for all models.
-/
namespace Ashttpd

theorem fileSlice_zero (file : Bytes) (off : ℕ) : fileSlice file off 0 = [] := by
  simp [fileSlice]

theorem fileSlice_length {file : Bytes} {off len : ℕ} (h : off + len ≤ file.length) :
    (fileSlice file off len).length = len := by
  unfold fileSlice
  rw [List.length_take, List.length_drop]
  omega

theorem fileSlice_length_le (file : Bytes) (off len : ℕ) : (fileSlice file off len).length ≤ len :=
  List.length_take_le len _

theorem fileSlice_append (file : Bytes) (off : ℕ) {k len : ℕ} (h : k ≤ len) :
    fileSlice file off len = fileSlice file off k ++ fileSlice file (off + k) (len - k) := by
  unfold fileSlice
  rw [← List.drop_drop, ← List.take_add]
  congr 1
  omega

theorem take_fileSlice (file : Bytes) (off : ℕ) {k len : ℕ} (h : k ≤ len) :
    (fileSlice file off len).take k = fileSlice file off k := by
  unfold fileSlice
  rw [List.take_take, Nat.min_eq_left h]

theorem fileSlice_of_prefix {file bs : Bytes} {off len : ℕ} (h : bs <+: fileSlice file off len) :
    bs.length ≤ len ∧
      fileSlice file off len = bs ++ fileSlice file (off + bs.length) (len - bs.length) := by
  have hle : bs.length ≤ len := h.length_le.trans (fileSlice_length_le file off len)
  refine ⟨hle, ?_⟩
  have hbs : bs = fileSlice file off bs.length := by
    obtain ⟨tail, htail⟩ := h
    rw [← take_fileSlice file off hle, ← htail, List.take_left]
  conv_lhs => rw [fileSlice_append file off hle, ← hbs]

/-- A read inside of the file gets everything, unless one of its calls fails. -/
theorem fdPread_spec {file : Bytes} (rs : List PreadResult) {off len : ℕ}
    (hfit : off + len ≤ file.length) (hlen : 0 < len) :
    fdPread file rs off len = some (fileSlice file off len, false) ∨
      fdPread file rs off len = none ∧ PreadResult.error ∈ rs := by
  induction rs generalizing off len with
  | nil =>
    apply Or.inl
    have hfull := fileSlice_length hfit
    have hne : len ≠ 0 := by omega
    simp [fdPread, hfull, hne]
  | cons p rs ih =>
    cases p with
    | eintr =>
      obtain h | ⟨h, hmem⟩ := ih hfit hlen
      · exact Or.inl h
      · exact Or.inr ⟨h, List.mem_cons_of_mem _ hmem⟩
    | eagain =>
      obtain h | ⟨h, hmem⟩ := ih hfit hlen
      · exact Or.inl h
      · exact Or.inr ⟨h, List.mem_cons_of_mem _ hmem⟩
    | error => exact Or.inr ⟨rfl, List.mem_cons_self⟩
    | read n =>
      have hshort : (fileSlice file off (min (n + 1) len)).length = min (n + 1) len :=
        fileSlice_length (by omega)
      rw [fdPread, hshort, if_neg (by omega)]
      by_cases hall : min (n + 1) len < len
      · rw [if_pos hall]
        have hsplit := fileSlice_append file off (by omega : min (n + 1) len ≤ len)
        obtain h | ⟨h, hmem⟩ := ih (by omega : off + min (n + 1) len + (len - min (n + 1) len) ≤ file.length)
          (by omega)
        · exact Or.inl (by rw [h, hsplit]; rfl)
        · exact Or.inr ⟨by rw [h]; rfl, List.mem_cons_of_mem _ hmem⟩
      · rw [if_neg hall, show min (n + 1) len = len by omega]
        exact Or.inl rfl

/-- A read that does not find the end of the file gets everything. -/
theorem fdPread_eq_some_false {file bs : Bytes} {rs : List PreadResult} {off len : ℕ}
    (h : fdPread file rs off len = some (bs, false)) : bs = fileSlice file off len ∧ bs.length = len := by
  induction rs generalizing off len bs with
  | nil =>
    have hlen := fileSlice_length_le file off len
    simp only [fdPread, Option.some.injEq, Prod.mk.injEq, Bool.or_eq_false_iff,
      decide_eq_false_iff_not] at h
    obtain ⟨rfl, hfull, -⟩ := h
    exact ⟨rfl, by omega⟩
  | cons p rs ih =>
    cases p with
    | eintr => exact ih h
    | eagain => exact ih h
    | error => cases h
    | read n =>
      have hlen := fileSlice_length_le file off (min (n + 1) len)
      unfold fdPread at h
      dsimp only at h
      split at h
      · cases h
      · split at h
        · obtain ⟨⟨bs', eof⟩, hrest, hbs⟩ := Option.map_eq_some_iff.mp h
          cases hbs
          obtain ⟨hbs', hlen'⟩ := ih hrest
          have hsplit := fileSlice_append file off
            (by omega : (fileSlice file off (min (n + 1) len)).length ≤ len)
          refine ⟨?_, by rw [List.length_append, hlen']; omega⟩
          rw [hsplit, ← hbs', ← take_fileSlice file off hlen, List.take_length]
        · cases h
          have hall : min (n + 1) len = len := by omega
          exact ⟨by rw [hall], by omega⟩

theorem ok_bind {ε α β : Type} (a : α) (f : α → Except ε β) :
    ((Except.ok a : Except ε α) >>= f) = f a := rfl

/-- The bytes an event hands to the socket as part of a body. -/
def Event.body : Event → Bytes
  | .sent .data bytes => bytes
  | _ => []

def bodySent (log : List Event) : Bytes := log.flatMap Event.body

@[simp] theorem bodySent_nil : bodySent [] = [] := rfl

@[simp] theorem bodySent_append (l l' : List Event) : bodySent (l ++ l') = bodySent l ++ bodySent l' := by
  simp [bodySent]

@[simp] theorem bodySent_cons (e : Event) (l : List Event) : bodySent (e :: l) = e.body ++ bodySent l := by
  simp [bodySent]

def Quiet (new : List Event) : Prop := bodySent new = [] ∧ Event.complete ∉ new

theorem quiet_nil : Quiet [] := ⟨rfl, by simp⟩

theorem Quiet.append {l l' : List Event} (h : Quiet l) (h' : Quiet l') : Quiet (l ++ l') := by
  refine ⟨by rw [bodySent_append, h.1, h'.1]; rfl, ?_⟩
  rw [List.mem_append, not_or]
  exact ⟨h.2, h'.2⟩

namespace HttpConn

def Responding (h : HttpConn) : Prop := h.hState = .data ∨ h.hState = .header

instance (h : HttpConn) : Decidable h.Responding := inferInstanceAs (Decidable (_ ∨ _))

section Accessors

variable {h : HttpConn}

theorem assertResponding_eq (hr : h.Responding) : h.assertResponding = .ok () := if_pos hr

theorem httpConnData_eq (hr : h.Responding) {w : ℕ} (hw : h.hWebroot = some w) :
    h.httpConnData = .ok (w, h.hDataOff, h.hDataLen) := by
  rw [httpConnData, assertResponding_eq hr, hw]
  rfl

theorem httpConnDataRead_eq (hr : h.Responding) {len : ℕ} (hle : len ≤ h.hDataLen) :
    h.httpConnDataRead len = .ok (h.withData (h.hDataOff + len) (h.hDataLen - len)) := by
  rw [httpConnDataRead, assertResponding_eq hr, if_pos hle]
  rfl

theorem httpConnGetPriv_eq (hr : h.Responding) : h.httpConnGetPriv = .ok h.hIoPriv := by
  rw [httpConnGetPriv, assertResponding_eq hr]
  rfl

theorem httpConnSetPriv_eq (hr : h.Responding) (priv : Option HttpBuf) :
    h.httpConnSetPriv priv = .ok (h.withPriv priv) := by
  rw [httpConnSetPriv, assertResponding_eq hr]
  rfl

theorem httpConnInactive_eq (hr : h.Responding) :
    h.httpConnInactive = .ok (h.withNbio (h.hNbio.nbioInactive NBIO_WRITE)) := by
  rw [httpConnInactive, assertResponding_eq hr]
  rfl

/-- Where a connection goes that is to wait for something. -/
def waiting (io : Nbio) (wait : UInt8) : Nbio :=
  { io with
    mask := wait &&& NBIO_WAIT
    flags := wait &&& NBIO_WAIT
    polled := false
    list := if wait &&& NBIO_WAIT = 0 then .inactive else .active }

theorem nbioSetWait_eq (hm : h.hNbio.mask ≠ NBIO_DELETED) (wait : UInt8) :
    h.nbioSetWait wait = .ok (h.withNbio (waiting h.hNbio wait)) := by
  rw [nbioSetWait, Nbio.doSetWait, if_neg hm]
  rfl

end Accessors

@[simp] theorem nbioInactive_mask (io : Nbio) (mask : UInt8) : (io.nbioInactive mask).mask = io.mask := by
  unfold Nbio.nbioInactive
  dsimp only
  split <;> rfl

@[simp] theorem nbioInactive_fd (io : Nbio) (mask : UInt8) : (io.nbioInactive mask).fd = io.fd := by
  unfold Nbio.nbioInactive
  dsimp only
  split <;> rfl

theorem free_spec (h : HttpConn) (b : Option HttpBuf) (kind : BufKind) :
    ∃ new, h.free b kind = h.logged new ∧ Quiet new := by
  cases b with
  | none => exact ⟨[], by simp [free, logged], quiet_nil⟩
  | some b => exact ⟨[.freed kind], rfl, by simp [Event.body], by simp⟩

theorem ioAbort_spec (fio : Fio) {h : HttpConn} (hr : h.Responding) :
    ∃ new, h.ioAbort fio = .ok (h.logged new) ∧ Quiet new := by
  obtain ⟨new, hfree, hquiet⟩ := h.free_spec h.hIoPriv .data
  cases fio with
  | sendfile => exact ⟨[], by simp [ioAbort, logged], quiet_nil⟩
  | sync | async =>
    refine ⟨new, ?_, hquiet⟩
    rw [← hfree, ioAbort, httpConnGetPriv_eq hr]
    rfl

theorem logged_logged (h : HttpConn) (new new' : List Event) :
    (h.logged new).logged new' = h.logged (new ++ new') := by
  simp [logged, List.append_assoc]

/-- A connection that responds can be killed, and so can one that waits for a request. -/
theorem httpKill_spec (fio : Fio) {h : HttpConn}
    (hr : h.Responding ∨ h.hState = .request ∧ h.hRes = none) (hfd : h.hNbio.fd = true) :
    ∃ h' new, h.httpKill fio = .ok h' ∧ h'.hState = .dead ∧ h'.log = h.log ++ new ∧ Quiet new := by
  have hfd' : ¬ h.hNbio.fd = false := by simp [hfd]
  have hclosed : Quiet [Event.closed] := ⟨by simp [Event.body], by simp⟩
  obtain ⟨new₁, hfree₁, hquiet₁⟩ := h.close.free_spec h.hReq .req
  have hdrop : ∃ new₂, (h.close.logged new₁).dropResponse fio = .ok (h.close.logged (new₁ ++ new₂)) ∧
      Quiet new₂ := by
    have hstate : (h.close.logged new₁).hState = h.hState := rfl
    have hres₁ : (h.close.logged new₁).hRes = h.hRes := rfl
    obtain (hs | hs) | ⟨hs, hres⟩ := hr
    · obtain ⟨new₂, habort, hquiet₂⟩ := ioAbort_spec fio (Or.inl hs : (h.close.logged new₁).Responding)
      exact ⟨new₂, by rw [dropResponse, hstate, hs, ← logged_logged, ← habort], hquiet₂⟩
    · obtain ⟨new₂, hfree₂, hquiet₂⟩ := (h.close.logged new₁).free_spec h.hRes .res
      obtain ⟨new₃, habort, hquiet₃⟩ :=
        ioAbort_spec fio (Or.inr hs : ((h.close.logged new₁).logged new₂).Responding)
      refine ⟨new₂ ++ new₃, ?_, hquiet₂.append hquiet₃⟩
      rw [dropResponse, hstate, hs, hres₁, ← logged_logged, ← logged_logged, ← habort, ← hfree₂]
    · refine ⟨[], ?_, quiet_nil⟩
      rw [dropResponse, hstate, hs, hres₁, hres, List.append_nil]
      rfl
  obtain ⟨new₂, hdrop, hquiet₂⟩ := hdrop
  refine ⟨(h.close.logged (new₁ ++ new₂)).buried, [.closed] ++ (new₁ ++ new₂), ?_, rfl, ?_,
    hclosed.append (hquiet₁.append hquiet₂)⟩
  · rw [httpKill, if_neg hfd', hfree₁, hdrop]
    rfl
  · show h.log ++ [.closed] ++ (new₁ ++ new₂) = _
    rw [List.append_assoc]

theorem dropWebroot_spec (h : HttpConn) :
    ∃ new, h.dropWebroot = (h.withWebroot none).logged new ∧ Quiet new := by
  unfold dropWebroot
  cases hw : h.hWebroot with
  | none =>
    refine ⟨[], ?_, quiet_nil⟩
    cases h
    simp_all [logged, withWebroot]
  | some w => exact ⟨[.webrootUnref w], rfl, by simp [Event.body], by simp⟩

/-- A body of which nothing is left is complete. -/
theorem httpConnDataComplete_spec (fio : Fio) {h : HttpConn} (hs : h.hState = .data)
    (hlen : h.hDataLen = 0) (hmask : h.hNbio.mask ≠ NBIO_DELETED) (hfd : h.hNbio.fd = true)
    (hres : h.hRes = none) :
    ∃ h' new, h.httpConnDataComplete fio = .ok h' ∧ (h'.hState = .request ∨ h'.hState = .dead) ∧
      h'.log = h.log ++ .complete :: new ∧ Quiet new := by
  have hwait := nbioSetWait_eq (h := (h.withState .request).logged [.complete]) hmask NBIO_READ
  rw [httpConnDataComplete, if_neg (by simp [hs]), if_neg (by simp [hlen]), hwait, ok_bind]
  obtain ⟨h₁, hh₁⟩ : ∃ h₁, h₁ = ((h.withState .request).logged [.complete]).withNbio
      (waiting ((h.withState .request).logged [.complete]).hNbio NBIO_READ) := ⟨_, rfl⟩
  obtain ⟨new₁, hdrop, hquiet₁⟩ := h₁.dropWebroot_spec
  have hlog₁ : ((h₁.withWebroot none).logged new₁).log = h.log ++ .complete :: new₁ := by
    rw [hh₁]
    simp
  rw [← hh₁, hdrop]
  by_cases hclose : h₁.hConnClose ≠ 0
  · rw [if_pos hclose]
    have hidle : ((h₁.withWebroot none).logged new₁).hState = .request ∧
        ((h₁.withWebroot none).logged new₁).hRes = none := by
      rw [hh₁]
      exact ⟨rfl, hres⟩
    have hfd₁ : ((h₁.withWebroot none).logged new₁).hNbio.fd = true := by
      rw [hh₁]
      exact hfd
    obtain ⟨h', new₂, hkill, hdead, hlog, hquiet₂⟩ := httpKill_spec fio (Or.inr hidle) hfd₁
    refine ⟨h', new₁ ++ new₂, hkill, Or.inr hdead, ?_, hquiet₁.append hquiet₂⟩
    rw [hlog, hlog₁, List.append_assoc, List.cons_append]
  · rw [if_neg hclose]
    refine ⟨_, new₁, rfl, Or.inl ?_, hlog₁, hquiet₁⟩
    rw [hh₁]
    rfl

end HttpConn
end Ashttpd
