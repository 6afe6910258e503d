import Ashttpd.HeadScan
import Ashttpd.HttpReq

/-!
# The grammar of heads

Which texts the decoder takes as a request line and as header fields, what it makes of them,
and how its loop goes over them. The loop equations hold from any position of any buffer;
only the vectors they mention are cut out of the buffer.
-/
namespace Ashttpd

variable {σ : Type} (d : List (HttpHcb σ)) (p : Bytes)

/-- Going over bytes that end the loop ends it for all bytes after them. -/
theorem decodeLoop_append (x y : Bytes) (cur : ℕ) (st : Decode σ) :
    decodeLoop d p cur (x ++ y) st =
      if (decodeLoop d p cur x st).2 then decodeLoop d p cur x st
      else decodeLoop d p (cur + x.length) y (decodeLoop d p cur x st).1 := by
  induction x generalizing cur st with
  | nil => simp [decodeLoop]
  | cons c x ih =>
    rw [List.cons_append, decodeLoop, decodeLoop]
    cases hs : decodeStep d p cur c st with
    | mk st' done =>
      cases done with
      | true => simp
      | false =>
        simp only [ih, List.length_cons]
        rw [Nat.add_right_comm, Nat.add_assoc]

theorem upTo_append (s : Bytes) (start : ℕ) {cur : ℕ} (h : cur ≤ p.length) :
    upTo (p ++ s) start cur = upTo p start cur := by
  rw [upTo, upTo]
  congr 1
  rcases Nat.le_total start p.length with hs | hs
  · rw [List.drop_append_of_le_length hs, List.take_append_of_le_length]
    rw [List.length_drop]
    omega
  · have hz : cur - start = 0 := by omega
    rw [hz, List.take_zero, List.take_zero]

theorem decodeStep_append (s : Bytes) {cur : ℕ} (h : cur ≤ p.length) (c : UInt8) (st : Decode σ) :
    decodeStep d (p ++ s) cur c st = decodeStep d p cur c st := by
  cases hst : st.state with
  | state0 | state3 => simp only [decodeStep, hst]
  | state1 | state2 | state4 => simp only [decodeStep, hst, upTo_append p s _ h]

theorem decodeLoop_buffer (s x : Bytes) {cur : ℕ} (h : cur + x.length ≤ p.length)
    (st : Decode σ) : decodeLoop d (p ++ s) cur x st = decodeLoop d p cur x st := by
  induction x generalizing cur st with
  | nil => rfl
  | cons c x ih =>
    rw [List.length_cons] at h
    rw [decodeLoop, decodeLoop, decodeStep_append d p s (by omega)]
    cases hs : decodeStep d p cur c st with
    | mk st' done =>
      cases done with
      | true => rfl
      | false => exact ih (by omega) st'

theorem decodeLoop_stay {x : Bytes} {st : Decode σ}
    (h : ∀ c ∈ x, ∀ cur, decodeStep d p cur c st = (st, false)) (cur : ℕ) :
    decodeLoop d p cur x st = (st, false) := by
  induction x generalizing cur with
  | nil => rfl
  | cons c x ih =>
    rw [List.forall_mem_cons] at h
    rw [decodeLoop, h.1 cur]
    exact ih h.2 (cur + 1)

theorem decodeLoop_stay_step {x : Bytes} {c : UInt8} {st st' : Decode σ} {cur : ℕ}
    (h : ∀ c ∈ x, ∀ cur, decodeStep d p cur c st = (st, false))
    (hc : decodeStep d p (cur + x.length) c st = (st', false)) (y : Bytes) :
    decodeLoop d p cur (x ++ c :: y) st = decodeLoop d p (cur + x.length + 1) y st' := by
  rw [decodeLoop_append, decodeLoop_stay d p h, if_neg (by simp), decodeLoop, hc]

theorem upTo_eq {start : ℕ} {w rest : Bytes} (h : p.drop start = w ++ rest) :
    upTo p start (start + w.length) = ⟨some start, w⟩ := by
  rw [upTo, h, Nat.add_sub_cancel_left, List.take_left]

theorem drop_add {start : ℕ} {w rest : Bytes} (h : p.drop start = w ++ rest) :
    p.drop (start + w.length) = rest := by
  rw [← List.drop_drop, h, List.drop_left]

section steps

variable (st : Decode σ) (cur : ℕ)

theorem stay_state0 (h : st.state = .state0) (n : ℕ) :
    ∀ c ∈ List.replicate n SP, ∀ cur, decodeStep d p cur c st = (st, false) := by
  intro c hc cur
  obtain rfl := List.eq_of_mem_replicate hc
  simp [decodeStep, h]

theorem stay_state1 (h : st.state = .state1) {x : Bytes} (hsp : st.i < 2 → SP ∉ x)
    (hlf : LF ∉ x) : ∀ c ∈ x, ∀ cur, decodeStep d p cur c st = (st, false) := by
  intro c hc cur
  have hl : c ≠ LF := fun he => hlf (he ▸ hc)
  by_cases hs : c = SP
  · have hi : ¬ st.i < 2 := fun hi => hsp hi (hs ▸ hc)
    simp [decodeStep, h, hs, hi]
  · simp [decodeStep, h, hs, hl]

theorem stay_state2 (h : st.state = .state2) {x : Bytes} (hcolon : COLON ∉ x) (hlf : LF ∉ x) :
    ∀ c ∈ x, ∀ cur, decodeStep d p cur c st = (st, false) := by
  intro c hc cur
  have h1 : c ≠ COLON := fun he => hcolon (he ▸ hc)
  have h2 : c ≠ LF := fun he => hlf (he ▸ hc)
  simp [decodeStep, h, h1, h2]

theorem stay_state3 (h : st.state = .state3) (n : ℕ) :
    ∀ c ∈ List.replicate n SP, ∀ cur, decodeStep d p cur c st = (st, false) := by
  intro c hc cur
  obtain rfl := List.eq_of_mem_replicate hc
  simp [decodeStep, h]

theorem stay_state4 (h : st.state = .state4) {x : Bytes} (hlf : LF ∉ x) :
    ∀ c ∈ x, ∀ cur, decodeStep d p cur c st = (st, false) := by
  intro c hc cur
  have h1 : c ≠ LF := fun he => hlf (he ▸ hc)
  simp [decodeStep, h, h1]

theorem loop_begin_word (h : st.state = .state0) (n : ℕ) {c : UInt8} (hc : c ≠ SP) (y : Bytes) :
    decodeLoop d p cur (List.replicate n SP ++ c :: y) st =
      decodeLoop d p (cur + n + 1) y
        { st with state := .state1, hv := st.hv.set st.i ⟨some (cur + n), []⟩ } := by
  have hstep : decodeStep d p (cur + n) c st =
      ({ st with state := .state1, hv := st.hv.set st.i ⟨some (cur + n), []⟩ }, false) := by
    simp [decodeStep, h, hc]
  rw [decodeLoop_stay_step d p (stay_state0 d p st h n) (by rw [List.length_replicate]; exact hstep),
    List.length_replicate]

/-- A word that is not the last ends at a space. -/
theorem loop_end_word (h : st.state = .state1) (hi : st.i < 2) {x : Bytes} (hsp : SP ∉ x)
    (hlf : LF ∉ x) (y : Bytes) :
    decodeLoop d p cur (x ++ SP :: y) st =
      decodeLoop d p (cur + x.length + 1) y
        { st with
          state := .state0
          hv := st.hv.set st.i (upTo p (st.hv.getD st.i {}).start (cur + x.length))
          i := st.i + 1 } := by
  have hstep : decodeStep d p (cur + x.length) SP st =
      ({ st with
          state := .state0
          hv := st.hv.set st.i (upTo p (st.hv.getD st.i {}).start (cur + x.length))
          i := st.i + 1 }, false) := by
    simp [decodeStep, h, hi]
  exact decodeLoop_stay_step d p (stay_state1 d p st h (fun _ => hsp) hlf) hstep y

/-- The request line ends at a line feed behind a word. -/
theorem loop_end_line (h : st.state = .state1) {x : Bytes} (hsp : st.i < 2 → SP ∉ x)
    (hlf : LF ∉ x) (y : Bytes) :
    decodeLoop d p cur (x ++ LF :: y) st =
      decodeLoop d p (cur + x.length + 1) y
        { st with
          state := .state2
          hv := st.hv.set st.i
            (upTo p (st.hv.getD st.i {}).start (cur + x.length)).stripCr
          k := ⟨some (cur + x.length + 1), []⟩
          ret := cur + x.length + 1 } := by
  have hne : LF ≠ SP := by decide
  have hstep : decodeStep d p (cur + x.length) LF st =
      ({ st with
          state := .state2
          hv := st.hv.set st.i
            (upTo p (st.hv.getD st.i {}).start (cur + x.length)).stripCr
          k := ⟨some (cur + x.length + 1), []⟩
          ret := cur + x.length + 1 }, false) := by
    simp [decodeStep, h, hne]
  exact decodeLoop_stay_step d p (stay_state1 d p st h hsp hlf) hstep y

theorem loop_key (h : st.state = .state2) {x : Bytes} (hcolon : COLON ∉ x) (hlf : LF ∉ x)
    (y : Bytes) :
    decodeLoop d p cur (x ++ COLON :: y) st =
      decodeLoop d p (cur + x.length + 1) y
        { st with state := .state3, k := upTo p st.k.start (cur + x.length) } := by
  have hstep : decodeStep d p (cur + x.length) COLON st =
      ({ st with state := .state3, k := upTo p st.k.start (cur + x.length) }, false) := by
    simp [decodeStep, h]
  exact decodeLoop_stay_step d p (stay_state2 d p st h hcolon hlf) hstep y

theorem loop_blank (h : st.state = .state2) {x : Bytes} (hcolon : COLON ∉ x) (hlf : LF ∉ x)
    (y : Bytes) :
    decodeLoop d p cur (x ++ LF :: y) st =
      ({ st with ret := cur + x.length + 1 }, true) := by
  have hne : LF ≠ COLON := by decide
  have hstep : decodeStep d p (cur + x.length) LF st =
      ({ st with ret := cur + x.length + 1 }, true) := by
    simp [decodeStep, h, hne]
  rw [decodeLoop_append, decodeLoop_stay d p (stay_state2 d p st h hcolon hlf), if_neg (by simp),
    decodeLoop, hstep]

theorem loop_begin_value (h : st.state = .state3) (n : ℕ) {c : UInt8} (hc : c ≠ SP) (y : Bytes) :
    decodeLoop d p cur (List.replicate n SP ++ c :: y) st =
      decodeLoop d p (cur + n + 1) y { st with state := .state4, v := ⟨some (cur + n), []⟩ } := by
  have hstep : decodeStep d p (cur + n) c st =
      ({ st with state := .state4, v := ⟨some (cur + n), []⟩ }, false) := by
    simp [decodeStep, h, hc]
  rw [decodeLoop_stay_step d p (stay_state3 d p st h n) (by rw [List.length_replicate]; exact hstep),
    List.length_replicate]

/-- A value ends at a line feed and is dispatched with its key. -/
theorem loop_end_value (h : st.state = .state4) {x : Bytes} (hlf : LF ∉ x) (y : Bytes) :
    decodeLoop d p cur (x ++ LF :: y) st =
      decodeLoop d p (cur + x.length + 1) y
        { st with
          state := .state2
          v := (upTo p st.v.start (cur + x.length)).stripCr
          out := dispatchHdr (d.drop 3) st.k (upTo p st.v.start (cur + x.length)).stripCr st.out
          k := ⟨some (cur + x.length + 1), []⟩ } := by
  have hstep : decodeStep d p (cur + x.length) LF st =
      ({ st with
          state := .state2
          v := (upTo p st.v.start (cur + x.length)).stripCr
          out := dispatchHdr (d.drop 3) st.k (upTo p st.v.start (cur + x.length)).stripCr st.out
          k := ⟨some (cur + x.length + 1), []⟩ }, false) := by
    simp [decodeStep, h]
  exact decodeLoop_stay_step d p (stay_state4 d p st h hlf) hstep y

end steps

/-- A request line, from its word number `i` on, and the words in it. Spaces stand before each
word; only the last word of three may hold some itself. -/
inductive RequestWords : ℕ → Bytes → List Bytes → Prop
  | last {i n : ℕ} {c : UInt8} {v : Bytes} (hc : c ≠ SP) (hsp : i < 2 → SP ∉ v) (hlf : LF ∉ v) :
      RequestWords i (List.replicate n SP ++ c :: (v ++ [LF])) [stripCr (c :: v)]
  | more {i n : ℕ} {c : UInt8} {v x : Bytes} {ws : List Bytes} (hi : i < 2) (hc : c ≠ SP)
      (hsp : SP ∉ v) (hlf : LF ∉ v) (h : RequestWords (i + 1) x ws) :
      RequestWords i (List.replicate n SP ++ c :: (v ++ SP :: x)) ((c :: v) :: ws)

/-- Header fields, each with a value that has at least one byte, be it the line feed. -/
inductive HeadFields : Bytes → List (Bytes × Bytes) → Prop
  | nil : HeadFields [] []
  | cons {k v x : Bytes} {n : ℕ} {c : UInt8} {kvs : List (Bytes × Bytes)} (hcolon : COLON ∉ k)
      (hlf : LF ∉ k) (hc : c ≠ SP) (hv : LF ∉ v) (h : HeadFields x kvs) :
      HeadFields (k ++ COLON :: (List.replicate n SP ++ c :: (v ++ LF :: x)))
        ((k, stripCr (c :: v)) :: kvs)

/-- The decoder stands at the start of a line behind the request line. -/
structure Decode.AtLine (st : Decode σ) (cur : ℕ) : Prop where
  state : st.state = .state2
  key : st.k = ⟨some cur, []⟩

theorem RoVec.stripCr_bytes (v : RoVec) : v.stripCr.bytes = Ashttpd.stripCr v.bytes := rfl

theorem set_bytes (hv : List RoVec) (i : ℕ) (v : RoVec) :
    (hv.set i v).map RoVec.bytes = (hv.map RoVec.bytes).set i v.bytes := List.map_set

theorem set_getD_self {hv : List RoVec} {i : ℕ} (h : i < hv.length) (v : RoVec) :
    (hv.set i v).getD i {} = v := by
  simp [h]

section runs

variable {d p} {cur : ℕ}

theorem take_set_succ {α : Type*} {l : List α} {i : ℕ} (h : i < l.length) (a : α) :
    (l.set i a).take (i + 1) = l.take i ++ [a] := by
  rw [List.take_succ_eq_append_getElem (by rwa [List.length_set]), List.getElem_set_self,
    List.take_set_of_le (Nat.le_refl i)]

theorem upTo_spaces {n : ℕ} {c : UInt8} {v y : Bytes}
    (hp : p.drop cur = List.replicate n SP ++ c :: (v ++ y)) :
    upTo p (cur + n) (cur + n + 1 + v.length) = ⟨some (cur + n), c :: v⟩ := by
  have hdrop := drop_add p hp
  rw [List.length_replicate, ← List.cons_append] at hdrop
  have heq := upTo_eq p hdrop
  rwa [List.length_cons, Nat.add_comm v.length 1, ← Nat.add_assoc] at heq

/-- Over a request line the decoder collects its words. -/
theorem RequestWords.run {i : ℕ} {x rest : Bytes} {ws : List Bytes} (h : RequestWords i x ws)
    (st : Decode σ) (hp : p.drop cur = x ++ rest) (hst : st.state = .state0) (hi : st.i = i) (hi2 : i ≤ 2)
    (hlen : st.hv.length = 3) :
    ∃ st', decodeLoop d p cur (x ++ rest) st = decodeLoop d p (cur + x.length) rest st' ∧
      st'.AtLine (cur + x.length) ∧ st'.out = st.out ∧ st'.hv.map RoVec.bytes =
        (st.hv.map RoVec.bytes).take i ++ ws ++ (st.hv.map RoVec.bytes).drop (i + ws.length) := by
  induction h generalizing cur st with
  | @last i n c v hc hsp hlf =>
    subst hi
    have hi3 : st.i < st.hv.length := by omega
    have hx : (List.replicate n SP ++ c :: (v ++ [LF])) ++ rest =
        List.replicate n SP ++ c :: (v ++ LF :: rest) := by simp
    have hend : cur + n + 1 + v.length + 1 =
        cur + (List.replicate n SP ++ c :: (v ++ [LF])).length := by
      simp only [List.length_append, List.length_replicate, List.length_cons, List.length_nil]
      omega
    rw [hx] at hp ⊢
    have hline := loop_end_line d p
      { st with state := .state1, hv := st.hv.set st.i ⟨some (cur + n), []⟩ } (cur + n + 1)
      rfl hsp hlf rest
    rw [set_getD_self hi3, RoVec.start, Option.getD_some, upTo_spaces hp, hend] at hline
    rw [loop_begin_word d p st cur hst n hc, hline]
    refine ⟨_, rfl, ⟨rfl, rfl⟩, rfl, ?_⟩
    have hi3' : st.i < (st.hv.map RoVec.bytes).length := by rwa [List.length_map]
    rw [List.set_set, set_bytes, RoVec.stripCr_bytes, List.set_eq_take_append_cons_drop,
      if_pos hi3', List.append_assoc]
    rfl
  | @more i n c v x ws hi' hc hsp hlf hw ih =>
    subst hi
    have hi3 : st.i < st.hv.length := by omega
    have hx : (List.replicate n SP ++ c :: (v ++ SP :: x)) ++ rest =
        List.replicate n SP ++ c :: (v ++ SP :: (x ++ rest)) := by simp
    have hend : cur + n + 1 + v.length + 1 + x.length =
        cur + (List.replicate n SP ++ c :: (v ++ SP :: x)).length := by
      simp only [List.length_append, List.length_replicate, List.length_cons]
      omega
    rw [hx] at hp ⊢
    have hword := loop_end_word d p
      { st with state := .state1, hv := st.hv.set st.i ⟨some (cur + n), []⟩ } (cur + n + 1)
      rfl hi' hsp hlf (x ++ rest)
    rw [set_getD_self hi3, RoVec.start, Option.getD_some, upTo_spaces hp, List.set_set] at hword
    rw [loop_begin_word d p st cur hst n hc, hword]
    have hrest : p.drop (cur + n + 1 + v.length + 1) = x ++ rest := by
      have hsplit : List.replicate n SP ++ c :: (v ++ SP :: (x ++ rest)) =
          (List.replicate n SP ++ c :: (v ++ [SP])) ++ (x ++ rest) := by simp
      rw [hsplit] at hp
      rw [← drop_add p hp]
      congr 1
      simp only [List.length_append, List.length_replicate, List.length_cons, List.length_nil]
      omega
    obtain ⟨st', hloop, hline, hout, hhv⟩ := ih
      { st with state := .state0, hv := st.hv.set st.i ⟨some (cur + n), c :: v⟩, i := st.i + 1 }
      hrest rfl rfl (by omega) (by simpa using hlen)
    rw [hend] at hloop hline
    refine ⟨st', hloop, hline, hout, ?_⟩
    have hi3' : st.i < (st.hv.map RoVec.bytes).length := by rwa [List.length_map]
    rw [hhv, set_bytes, take_set_succ hi3', List.drop_set_of_lt (by omega), List.append_assoc _ [_],
      List.length_cons, Nat.add_right_comm st.i, Nat.add_assoc st.i]
    rfl

/-- Over header fields the decoder dispatches them in their order. -/
theorem HeadFields.run {x rest : Bytes} {kvs : List (Bytes × Bytes)} (h : HeadFields x kvs)
    (st : Decode σ) (hp : p.drop cur = x ++ rest) (hst : st.AtLine cur) :
    ∃ st' : Decode σ, ∃ vs : List (RoVec × RoVec),
      decodeLoop d p cur (x ++ rest) st = decodeLoop d p (cur + x.length) rest st' ∧
      st'.AtLine (cur + x.length) ∧ st'.hv = st.hv ∧
      vs.map (fun kv => (kv.1.bytes, kv.2.bytes)) = kvs ∧
      st'.out = vs.foldl (fun o kv => dispatchHdr (d.drop 3) kv.1 kv.2 o) st.out := by
  induction h generalizing cur st with
  | nil => exact ⟨st, [], rfl, hst, rfl, rfl, rfl⟩
  | @cons k v x n c kvs hcolon hlf hc hv hx ih =>
    have hx' : (k ++ COLON :: (List.replicate n SP ++ c :: (v ++ LF :: x))) ++ rest =
        k ++ COLON :: (List.replicate n SP ++ c :: (v ++ LF :: (x ++ rest))) := by simp
    have hend : cur + k.length + 1 + n + 1 + v.length + 1 + x.length =
        cur + (k ++ COLON :: (List.replicate n SP ++ c :: (v ++ LF :: x))).length := by
      simp only [List.length_append, List.length_replicate, List.length_cons]
      omega
    rw [hx'] at hp ⊢
    have hkey := loop_key d p st cur hst.state hcolon hlf
      (List.replicate n SP ++ c :: (v ++ LF :: (x ++ rest)))
    rw [hst.key, RoVec.start, Option.getD_some, upTo_eq p hp] at hkey
    have hafter : p.drop (cur + k.length + 1) =
        List.replicate n SP ++ c :: (v ++ LF :: (x ++ rest)) := by
      rw [← List.drop_drop, drop_add p hp, List.drop_one, List.tail_cons]
    have hbegin := loop_begin_value d p { st with state := .state3, k := ⟨some cur, k⟩ }
      (cur + k.length + 1) rfl n hc (v ++ LF :: (x ++ rest))
    have hval := loop_end_value d p
      { st with state := .state4, k := ⟨some cur, k⟩, v := ⟨some (cur + k.length + 1 + n), []⟩ }
      (cur + k.length + 1 + n + 1) rfl hv (x ++ rest)
    rw [RoVec.start, Option.getD_some, upTo_spaces hafter] at hval
    rw [hkey, hbegin, hval]
    have hrest : p.drop (cur + k.length + 1 + n + 1 + v.length + 1) = x ++ rest := by
      have hsplit : List.replicate n SP ++ c :: (v ++ LF :: (x ++ rest)) =
          (List.replicate n SP ++ c :: (v ++ [LF])) ++ (x ++ rest) := by simp
      rw [hsplit] at hafter
      rw [← drop_add p hafter]
      congr 1
      simp only [List.length_append, List.length_replicate, List.length_cons, List.length_nil]
      omega
    obtain ⟨st', vs, hloop, hline, hhv, hvs, hout⟩ := ih
      { st with
        state := .state2
        k := ⟨some (cur + k.length + 1 + n + 1 + v.length + 1), []⟩
        v := RoVec.stripCr ⟨some (cur + k.length + 1 + n), c :: v⟩
        out := dispatchHdr (d.drop 3) ⟨some cur, k⟩
          (RoVec.stripCr ⟨some (cur + k.length + 1 + n), c :: v⟩) st.out }
      hrest ⟨rfl, rfl⟩
    rw [hend] at hloop hline
    exact ⟨st', (⟨some cur, k⟩, RoVec.stripCr ⟨some (cur + k.length + 1 + n), c :: v⟩) :: vs, hloop,
      hline, hhv, by rw [List.map_cons, hvs]; rfl, hout⟩

/-- A request line and fields, and a line without a colon, are a whole head: the decoder stops
behind that line, whatever follows it. -/
theorem decodeLoop_head {x y l : Bytes} {ws : List Bytes} {kvs : List (Bytes × Bytes)}
    (hw : RequestWords 0 x ws) (hf : HeadFields y kvs) (hcolon : COLON ∉ l) (hlf : LF ∉ l)
    (t : Bytes) (out : σ) :
    ∃ st : Decode σ, ∃ vs : List (RoVec × RoVec),
      decodeLoop d (x ++ (y ++ (l ++ LF :: t))) 0 (x ++ (y ++ (l ++ LF :: t))) (Decode.init out) =
        (st, true) ∧
      st.ret = x.length + y.length + l.length + 1 ∧
      st.hv.map RoVec.bytes = ws ++ List.drop ws.length [[], [], []] ∧
      vs.map (fun kv => (kv.1.bytes, kv.2.bytes)) = kvs ∧
      st.out = vs.foldl (fun o kv => dispatchHdr (d.drop 3) kv.1 kv.2 o) out := by
  obtain ⟨st1, hloop1, hline1, hout1, hhv1⟩ := hw.run (d := d)
    (p := x ++ (y ++ (l ++ LF :: t))) (Decode.init out) (List.drop_zero) rfl rfl (Nat.zero_le _) rfl
  have hdrop : (x ++ (y ++ (l ++ LF :: t))).drop (0 + x.length) = y ++ (l ++ LF :: t) := by
    rw [Nat.zero_add, List.drop_left]
  obtain ⟨st2, vs, hloop2, hline2, hhv2, hvs, hout2⟩ := hf.run (d := d) st1 hdrop hline1
  have hblank := loop_blank d (x ++ (y ++ (l ++ LF :: t))) st2 (0 + x.length + y.length)
    hline2.state hcolon hlf t
  refine ⟨_, vs, by rw [hloop1, hloop2, hblank], ?_, ?_, hvs, ?_⟩
  · simp only [Nat.zero_add]
  · rw [hhv2, hhv1]
    simp [Decode.init]
  · rw [hout2, hout1]
    rfl

end runs

theorem exists_first {α : Type*} (P : α → Prop) [DecidablePred P] (y : List α) :
    (∀ c ∈ y, ¬ P c) ∨ ∃ x c z, y = x ++ c :: z ∧ (∀ b ∈ x, ¬ P b) ∧ P c := by
  induction y with
  | nil => exact .inl (by simp)
  | cons a y ih =>
    by_cases ha : P a
    · exact .inr ⟨[], a, y, rfl, by simp, ha⟩
    · rcases ih with hnone | ⟨x, c, z, rfl, hx, hc⟩
      · exact .inl (List.forall_mem_cons.mpr ⟨ha, hnone⟩)
      · exact .inr ⟨a :: x, c, z, rfl, List.forall_mem_cons.mpr ⟨ha, hx⟩, hc⟩

theorem eq_spaces {x : Bytes} (h : ∀ b ∈ x, ¬ b ≠ SP) : x = List.replicate x.length SP :=
  List.eq_replicate_of_mem fun b hb => not_not.mp (h b hb)

section inversion

variable {d p} {cur : ℕ}

/-- When the loop ends from the start of a line, fields and a line without a colon were there.
The induction is on the number of bytes left. -/
theorem exists_fields_of_done {n : ℕ} {y : Bytes} (hn : y.length ≤ n) {st : Decode σ}
    (hst : st.state = .state2) (hdone : (decodeLoop d p cur y st).2 = true) :
    ∃ x kvs l t, y = x ++ (l ++ LF :: t) ∧ HeadFields x kvs ∧ COLON ∉ l ∧ LF ∉ l := by
  induction n generalizing y cur st with
  | zero =>
    obtain rfl := List.length_eq_zero_iff.mp (Nat.le_zero.mp hn)
    simp [decodeLoop] at hdone
  | succ n ih =>
    rcases exists_first (fun c => c = COLON ∨ c = LF) y with hnone | ⟨k, c, z, rfl, hk, hc⟩
    · have hcolon : COLON ∉ y := fun h => hnone _ h (.inl rfl)
      have hlf : LF ∉ y := fun h => hnone _ h (.inr rfl)
      rw [decodeLoop_stay d p (stay_state2 d p st hst hcolon hlf)] at hdone
      simp at hdone
    have hcolon : COLON ∉ k := fun h => hk _ h (.inl rfl)
    have hlf : LF ∉ k := fun h => hk _ h (.inr rfl)
    rcases hc with rfl | rfl
    swap
    · exact ⟨[], [], k, z, rfl, .nil, hcolon, hlf⟩
    rw [loop_key d p st cur hst hcolon hlf] at hdone
    rcases exists_first (fun c => c ≠ SP) z with hnone | ⟨sp, c, z, rfl, hsp, hc⟩
    · rw [eq_spaces hnone, decodeLoop_stay d p (stay_state3 d p _ rfl _)] at hdone
      simp at hdone
    rw [eq_spaces hsp, loop_begin_value d p _ _ rfl _ hc] at hdone
    rcases exists_first (fun c => c = LF) z with hnone | ⟨v, e, z, rfl, hv, rfl⟩
    · rw [decodeLoop_stay d p (stay_state4 d p _ rfl fun h => hnone _ h rfl)] at hdone
      simp at hdone
    have hvlf : LF ∉ v := fun h => hv _ h rfl
    rw [loop_end_value d p _ _ rfl hvlf] at hdone
    have hz : z.length ≤ n := by
      simp only [List.length_append, List.length_cons] at hn
      omega
    obtain ⟨x, kvs, l, t, rfl, hx, hl, hl'⟩ := ih hz rfl hdone
    have hfield := HeadFields.cons (n := sp.length) hcolon hlf hc hvlf hx
    rw [← eq_spaces hsp] at hfield
    exact ⟨_, _, l, t, by simp, hfield, hl, hl'⟩

/-- When the loop ends from within the request line, the rest of that line was there. The
induction is on the number of bytes left. -/
theorem exists_words_of_done {n : ℕ} {y : Bytes} (hn : y.length ≤ n) {st : Decode σ}
    (hst : st.state = .state0) (hdone : (decodeLoop d p cur y st).2 = true) :
    ∃ x ws rest, ∃ st' : Decode σ, ∃ cur', y = x ++ rest ∧ RequestWords st.i x ws ∧
      st'.state = .state2 ∧ (decodeLoop d p cur' rest st').2 = true := by
  induction n generalizing y cur st with
  | zero =>
    obtain rfl := List.length_eq_zero_iff.mp (Nat.le_zero.mp hn)
    simp [decodeLoop] at hdone
  | succ n ih =>
    rcases exists_first (fun c => c ≠ SP) y with hnone | ⟨sp, c, z, rfl, hsp, hc⟩
    · rw [eq_spaces hnone, decodeLoop_stay d p (stay_state0 d p st hst _)] at hdone
      simp at hdone
    rw [eq_spaces hsp, loop_begin_word d p st _ hst _ hc] at hdone
    generalize hst1 : ({ st with
      state := .state1
      hv := st.hv.set st.i ⟨some (cur + sp.length), []⟩ } : Decode σ) = st1 at hdone
    obtain ⟨h1, hi1⟩ : st1.state = .state1 ∧ st1.i = st.i := by
      rw [← hst1]
      exact ⟨rfl, rfl⟩
    rw [← hi1]
    rcases exists_first (fun e => e = LF ∨ (e = SP ∧ st1.i < 2)) z with
      hnone | ⟨v, e, z, rfl, hv, he⟩
    · have hlf : LF ∉ z := fun h => hnone _ h (.inl rfl)
      have hzsp : st1.i < 2 → SP ∉ z := fun hi h => hnone _ h (.inr ⟨rfl, hi⟩)
      rw [decodeLoop_stay d p (stay_state1 d p st1 h1 hzsp hlf)] at hdone
      simp at hdone
    have hlf : LF ∉ v := fun h => hv _ h (.inl rfl)
    have hvsp : st1.i < 2 → SP ∉ v := fun hi h => hv _ h (.inr ⟨rfl, hi⟩)
    rcases he with rfl | ⟨rfl, hi⟩
    · rw [loop_end_line d p st1 _ h1 hvsp hlf] at hdone
      have hline := RequestWords.last (n := sp.length) hc hvsp hlf
      rw [← eq_spaces hsp] at hline
      exact ⟨_, _, z, _, _, by simp, hline, rfl, hdone⟩
    · rw [loop_end_word d p st1 _ h1 hi (hvsp hi) hlf] at hdone
      have hz : z.length ≤ n := by
        simp only [List.length_append, List.length_cons] at hn
        omega
      obtain ⟨x, ws, rest, st', cur', rfl, hx, hst', hdone'⟩ := ih hz rfl hdone
      have hline := RequestWords.more (n := sp.length) hi hc (hvsp hi) hlf hx
      rw [← eq_spaces hsp] at hline
      exact ⟨_, _, rest, st', cur', by simp, hline, hst', hdone'⟩

end inversion

end Ashttpd
