import RtosKernel.Lib.Runs
import RtosKernel.Zephyr.MpscPbufLedger

/-! # Every packet once, and in order

What producers and consumer see of a run, and the three modes of use: without overwriting, overwriting with one
producer, and overwriting with several. -/
namespace RtosKernel.Zephyr.MpscPbuf
open Lib.Window Lib.RingRecords List Option

variable {L L' : Ledger} {e : Entry} {o : Obs} {P : Buffer → Event → Prop} {evs : List Event} {b : Bool}
  {ev : Event}

def Entry.packet (e : Entry) : Nat × List Word := (e.item, e.words)

/-- The accepted packets after one more observation. A producer writes a packet until it is committed. -/
def accept (acc : List Entry) : Obs → List Entry
  | .stored item words => acc ++ [⟨item, words, true⟩]
  | .allocated item words => acc ++ [⟨item, words, false⟩]
  | .filled item k w => acc.map fun e =>
      if e.item = item ∧ e.committed = false then { e with words := payload (e.words.set k w) } else e
  | .committed item => acc.map fun e => if e.item = item ∧ e.committed = false then { e with committed := true } else e
  | _ => acc

/-- The accepted packets in the order of acceptance, with the words that were put or written. -/
def accepted (os : List Obs) : List Entry := os.foldl accept []

/-- What `mpsc_pbuf_claim` returned. -/
def claims (os : List Obs) : List (Nat × List Word) :=
  os.filterMap fun
    | .claimed item words => some (item, words)
    | _ => none

/-- What was passed to `notify_drop`. -/
def drops (os : List Obs) : List (Nat × List Word) :=
  os.filterMap fun
    | .dropped item words => some (item, words)
    | _ => none

def reported (os : List Obs) : List (Nat × List Word) :=
  os.filterMap fun
    | .claimed item words | .dropped item words => some (item, words)
    | _ => none

/-- The packet that the consumer holds after one more observation. -/
def hold (held : Option (Nat × List Word)) : Obs → Option (Nat × List Word)
  | .claimed item words => some (item, words)
  | .freed _ => none
  | _ => held

/-- The packet that was claimed and not freed. -/
def holding (os : List Obs) : Option (Nat × List Word) := os.foldl hold none

/-- The accepted packets that were not reported. -/
def waiting (os : List Obs) : List Entry := (accepted os).drop (reported os).length

variable {cfg : Config} {s s' : Buffer} {cs : List Chunk} {os os' : List Obs}

/-! ## The ledger and the observations -/

/-- The ledger agrees with what was seen. -/
def Books (os : List Obs) (L : Ledger) : Prop :=
  ∃ done, accepted os = done ++ L.pending ∧ reported os = done.map Entry.packet ∧
    (∀ e ∈ done, e.committed = true) ∧ holding os = L.held.map Entry.packet

theorem Books.waiting (h : Books os L) : waiting os = L.pending := by
  obtain ⟨done, hacc, hrep, _, _⟩ := h
  rw [MpscPbuf.waiting, hacc, hrep, length_map]
  exact drop_left

theorem Books.delivered_le (h : Books os L) : reported os <+: (accepted os).map Entry.packet := by
  obtain ⟨done, hacc, hrep, _, _⟩ := h
  rw [hacc, hrep, map_append]
  exact prefix_append _ _

theorem Books.open_waiting (h : Books os L) (he : e ∈ accepted os) (hopen : e.committed = false) : e ∈ L.pending := by
  obtain ⟨done, hacc, _, hdone, _⟩ := h
  rw [hacc] at he
  rcases mem_append.mp he with he | he
  · have := hdone e he
    rw [hopen] at this
    cases this
  · exact he

theorem accepted_snoc (os : List Obs) (o : Obs) : accepted (os ++ [o]) = accept (accepted os) o := by
  simp [accepted]

theorem map_open {done l r : List Entry} {item : Nat} {words : List Word} {f : Entry → Entry}
    (hdone : ∀ e ∈ done, e.committed = true) (hone : ∀ e ∈ l ++ r, e.item ≠ item) :
    (done ++ (l ++ ⟨item, words, false⟩ :: r)).map (fun e => if e.item = item ∧ e.committed = false then f e else e) =
      done ++ (l ++ f ⟨item, words, false⟩ :: r) := by
  have hsame : ∀ es : List Entry, (∀ e ∈ es, e.item ≠ item ∨ e.committed = true) →
      es.map (fun e => if e.item = item ∧ e.committed = false then f e else e) = es := by
    intro es hes
    refine (map_congr_left fun e he => ?_).trans (List.map_id es)
    rcases hes e he with hne | hcom
    · simp [hne]
    · simp [hcom]
  simp only [map_append, map_cons, and_self, if_true]
  rw [hsame done fun e he => .inr (hdone e he), hsame l fun e he => .inl (hone e (mem_append_left _ he)),
    hsame r fun e he => .inl (hone e (mem_append_right _ he))]

theorem Moves.books (h : Books os L) (hmove : Moves L o L') : Books (os ++ [o]) L' := by
  obtain ⟨done, hacc, hrep, hdone, hhold⟩ := h
  have hrep' : ∀ o, reported (os ++ [o]) = reported os ++ reported [o] := fun o => filterMap_append ..
  have hhold' : ∀ o, holding (os ++ [o]) = hold (holding os) o := fun o => by simp [holding]
  cases hmove with
  | stored =>
    refine ⟨done, ?_, (hrep' _).trans (by simpa [reported] using hrep), hdone, (hhold' _).trans hhold⟩
    rw [accepted_snoc, hacc]
    exact append_assoc ..
  | allocated =>
    refine ⟨done, ?_, (hrep' _).trans (by simpa [reported] using hrep), hdone, (hhold' _).trans hhold⟩
    rw [accepted_snoc, hacc]
    exact append_assoc ..
  | filled hk hone =>
    refine ⟨done, ?_, (hrep' _).trans (by simpa [reported] using hrep), hdone, (hhold' _).trans hhold⟩
    rw [accepted_snoc, hacc]
    exact map_open hdone hone
  | committed hone =>
    refine ⟨done, ?_, (hrep' _).trans (by simpa [reported] using hrep), hdone, (hhold' _).trans hhold⟩
    rw [accepted_snoc, hacc]
    exact map_open hdone hone
  | @claimed p item words =>
    refine ⟨done ++ [⟨item, words, true⟩], ?_, ?_, ?_, hhold' _⟩
    · rw [accepted_snoc, append_assoc]
      exact hacc
    · rw [hrep', hrep, map_append]
      rfl
    · intro e he
      rcases mem_append.mp he with he | he
      · exact hdone e he
      · cases mem_singleton.mp he
        rfl
  | null =>
    refine ⟨done, ?_, (hrep' _).trans (by simpa [reported] using hrep), hdone, (hhold' _).trans hhold⟩
    rw [accepted_snoc]
    exact hacc
  | freed =>
    refine ⟨done, ?_, (hrep' _).trans (by simpa [reported] using hrep), hdone, hhold' _⟩
    rw [accepted_snoc]
    exact hacc
  | @dropped p h item words =>
    refine ⟨done ++ [⟨item, words, true⟩], ?_, ?_, ?_, (hhold' _).trans hhold⟩
    · rw [accepted_snoc, append_assoc]
      exact hacc
    · rw [hrep', hrep, map_append]
      rfl
    · intro e he
      rcases mem_append.mp he with he | he
      · exact hdone e he
      · cases mem_singleton.mp he
        rfl

theorem Accepts.books (h : Books os L) (hacc : Accepts L os' L') : Books (os ++ os') L' := by
  induction os' generalizing os L with
  | nil =>
    cases hacc
    simpa using h
  | cons o os' ih =>
    obtain ⟨L1, hmove, hrest⟩ := hacc
    have := ih (hmove.books h) hrest
    rwa [append_assoc] at this

/-! ## Runs -/

/-- Every step of the run meets the condition. -/
def Along (cfg : Config) (P : Buffer → Event → Prop) (s : Buffer) : List Event → Prop
  | [] => True
  | ev :: evs => P s ev ∧ ∀ r, step cfg s ev = some r → Along cfg P r.1 evs

instance Along.instDecidable (cfg : Config) (P : Buffer → Event → Prop) [∀ s ev, Decidable (P s ev)] :
    (s : Buffer) → (evs : List Event) → Decidable (Along cfg P s evs)
  | _, [] => isTrue trivial
  | s, ev :: evs =>
    match h : step cfg s ev with
    | none => decidable_of_iff (P s ev) ⟨fun hp => ⟨hp, fun r hr => by rw [h] at hr; cases hr⟩, And.left⟩
    | some r =>
      have := Along.instDecidable cfg P r.1 evs
      decidable_of_iff (P s ev ∧ Along cfg P r.1 evs)
        ⟨fun hp => ⟨hp.1, fun q hq => by rw [h] at hq; cases hq; exact hp.2⟩, fun hp => ⟨hp.1, hp.2 r h⟩⟩

theorem Along.mono {Q : Buffer → Event → Prop} (hPQ : ∀ s ev, P s ev → Q s ev)
    (h : Along cfg P s evs) : Along cfg Q s evs := by
  induction evs generalizing s with
  | nil => trivial
  | cons ev evs ih => exact ⟨hPQ s ev h.1, fun r hr => ih (h.2 r hr)⟩

theorem Along.and {Q : Buffer → Event → Prop} (hP : Along cfg P s evs) (hQ : Along cfg Q s evs) :
    Along cfg (fun s ev => P s ev ∧ Q s ev) s evs := by
  induction evs generalizing s with
  | nil => trivial
  | cons ev evs ih => exact ⟨⟨hP.1, hQ.1⟩, fun r hr => ih (hP.2 r hr) (hQ.2 r hr)⟩

theorem Along.of_events (h : ∀ ev ∈ evs, ∀ s, P s ev) : Along cfg P s evs := by
  induction evs generalizing s with
  | nil => trivial
  | cons ev evs ih => exact ⟨h ev (mem_cons_self ..) s, fun r _ => ih fun e he => h e (mem_cons_of_mem _ he)⟩

theorem run_follows (hsize : cfg.size ≤ 2 ^ 30) (h : Inv cfg s cs) (hok : Along cfg (StepOk cfg) s evs)
    (hgo : run cfg s evs = some (s', os)) : Follows cfg cs s' os := by
  induction evs generalizing s cs os with
  | nil =>
    cases hgo
    exact ⟨cs, h, rfl⟩
  | cons ev evs ih =>
    obtain ⟨⟨s1, os1⟩, ⟨s2, os2⟩, hstep, hrun, ⟨⟩⟩ := Lib.Runs.of_bind_map hgo
    obtain ⟨cs1, hinv1, hacc1⟩ := step_follows hsize h hok.1 hstep
    obtain ⟨cs2, hinv2, hacc2⟩ := ih hinv1 (hok.2 _ hstep) hrun
    exact ⟨cs2, hinv2, accepts_append hacc1 hacc2⟩

theorem mpscPbufInit_inv (buf : Nat → Word) : Inv cfg (mpscPbufInit buf) [] := by
  have hpos : 0 < cfg.size := Nat.lt_of_lt_of_le (by decide) cfg.two_le
  exact ⟨hpos, hpos, trivial, (Nat.zero_mod _).symm, (Nat.zero_mod _).symm, rfl, rfl, .inl ⟨rfl, fun _ => rfl⟩⟩

theorem run_books (hsize : cfg.size ≤ 2 ^ 30) (buf : Nat → Word)
    (hok : Along cfg (StepOk cfg) (mpscPbufInit buf) evs) (hgo : run cfg (mpscPbufInit buf) evs = some (s, os)) :
    ∃ cs, Inv cfg s cs ∧ Books os (ledger cs) := by
  obtain ⟨cs, hinv, hacc⟩ := run_follows hsize (mpscPbufInit_inv buf) hok hgo
  have hbooks : Books [] (ledger []) := ⟨[], rfl, rfl, fun e he => (by cases he), rfl⟩
  exact ⟨cs, hinv, by simpa using hacc.books hbooks⟩

/-! ## What holds after a run -/

/-- The words of the packets that wait, and of the one that the consumer holds, are as they were
put or written. -/
structure Intact (s : Buffer) (os : List Obs) : Prop where
  waiting : ∀ e ∈ waiting os, s.words e.item e.words.length = e.words
  holding : ∀ p ∈ holding os, s.words p.1 p.2.length = p.2

theorem Inv.words_of_mem (h : Inv cfg s cs) (hmem : .packet e b ∈ cs) : s.words e.item e.words.length = e.words := by
  obtain ⟨l, r, rfl⟩ := append_of_mem hmem
  obtain ⟨_, hat⟩ := h.at
  rw [hat.1]
  exact words_packet hat

theorem mem_of_pending (he : e ∈ (ledger cs).pending) : .packet e false ∈ cs := by
  obtain ⟨c, hc, hce⟩ := mem_filterMap.mp he
  cases c with
  | pad n => cases hce
  | packet e2 b =>
    cases b with
    | true => cases hce
    | false =>
      cases hce
      exact hc

theorem mem_of_held (he : (ledger cs).held = some e) : .packet e true ∈ cs := by
  obtain ⟨c, hc, hce⟩ := mem_filterMap.mp (List.mem_of_head? he)
  cases c with
  | pad n => cases hce
  | packet e2 b =>
    cases b with
    | true =>
      cases hce
      exact hc
    | false => cases hce

theorem Inv.intact (h : Inv cfg s cs) (hbooks : Books os (ledger cs)) : Intact s os where
  waiting := by
    intro e he
    rw [hbooks.waiting] at he
    exact h.words_of_mem (mem_of_pending he)
  holding := by
    intro p hp
    obtain ⟨_, _, _, _, hhold⟩ := hbooks
    rw [hhold] at hp
    obtain ⟨e, he, rfl⟩ := map_eq_some_iff.mp hp
    exact h.words_of_mem (mem_of_held he)

/-- `mpsc_pbuf_claim` with its loop: it returns the oldest packet that was not reported, or null if that is not
committed or there is none. -/
def ClaimNext (cfg : Config) (s : Buffer) (os : List Obs) : Prop :=
  ∃ k s', (∃ e ∈ (waiting os).head?, e.committed = true ∧
      run cfg s (replicate k .claim) = some (s', [.claimed e.item e.words])) ∨
    ((∀ e ∈ (waiting os).head?, e.committed = false) ∧ run cfg s (replicate k .claim) = some (s', [.null]))

theorem Inv.claimNext (hsize : cfg.size ≤ 2 ^ 30) (h : Inv cfg s cs) (hwait : waiting os = (ledger cs).pending)
    (hheld : s.held = none) : ClaimNext cfg s os := by
  induction cs generalizing s with
  | nil =>
    refine ⟨1, s, .inr ⟨fun e he => ?_, ?_⟩⟩
    · rw [hwait] at he
      cases he
    · have havail := (h.available_eq_zero hheld).mpr rfl
      simp [run, step, hheld, mpscPbufClaim, havail]
  | cons c cs ih =>
    cases c with
    | pad n =>
      obtain ⟨s1, hstep, hinv, hheld1⟩ := claim_pad hsize h hheld
      have hrun : ∀ k, run cfg s (replicate (k + 1) .claim) = run cfg s1 (replicate k .claim) := by
        intro k
        rw [replicate_succ, run, hstep]
        simp
      obtain ⟨k, s2, hres⟩ := ih hinv hwait hheld1
      refine ⟨k + 1, s2, ?_⟩
      rw [hrun]
      exact hres
    | packet e b =>
      have hends := claim_ends h hheld fun n cs' heq => by cases heq
      obtain ⟨s', o, hstep, ho⟩ : ∃ s' o, step cfg s .claim = some (s', [o]) ∧
          (o = .null ∨ ∃ item words, o = .claimed item words) := by
        simp only [step, if_pos hheld]
        cases hturn : (mpscPbufClaim cfg s).2 with
        | claimed item => exact ⟨_, _, rfl, .inr ⟨_, _, rfl⟩⟩
        | again => exact absurd hturn hends
        | null => exact ⟨_, _, rfl, .inl rfl⟩
      have hrun : run cfg s (replicate 1 .claim) = some (s', [o]) := by simp [run, hstep]
      obtain ⟨cs', _, L1, hmove, _⟩ := claim_follows hsize h hstep
      generalize ledger (.packet e b :: cs) = L at hwait hmove
      refine ⟨1, s', ?_⟩
      rw [hwait, hrun]
      rcases ho with rfl | ⟨item, words, rfl⟩
      · cases hmove with
        | null hp => exact .inr ⟨hp, rfl⟩
      · cases hmove with
        | claimed => exact .inl ⟨_, rfl, rfl, rfl⟩

/-! ## Without overwriting -/

/-- What is put is not an oversized packet in front of a word that reads as padding. -/
def PutFits (cfg : Config) (s : Buffer) : Event → Prop
  | .putWord _ => PutOk cfg s 1
  | .putWordExt _ data => PutOk cfg s (data.length + 1)
  | .putData data => PutOk cfg s data.length
  | _ => True

instance (wlen : Nat) : Decidable (PutOk cfg s wlen) := inferInstanceAs (Decidable (_ ∨ _))

instance (ev : Event) : Decidable (PutFits cfg s ev) := by
  cases ev <;> unfold PutFits <;> infer_instance

section
variable (hmode : cfg.overwrite = false)
include hmode

theorem PutFits.stepOk (h : PutFits cfg s ev) : StepOk cfg s ev := by
  have hdrop : ∀ wlen, DropOk cfg s wlen := fun wlen how => by rw [hmode] at how; cases how
  cases ev with
  | putWord item => exact ⟨h, hdrop 1⟩
  | putWordExt item data => exact ⟨h, hdrop _⟩
  | putData data => exact ⟨h, hdrop _⟩
  | alloc wlen wait timedOut => exact fun _ => hdrop wlen
  | free => exact fun how => by rw [hmode] at how; cases how
  | fill item k w => trivial
  | commit item => trivial
  | claim => trivial

theorem dropTurn_obs (f : Nat) : (dropTurn cfg s f).2.obs cfg s = [] := by
  by_cases hskip : getSkip (s.buf s.rdIdx) = 0
  · simp [dropTurn, dropItemLocked, hskip, hmode, Turn.obs]
  · simp [dropTurn, dropItemLocked, hskip, Turn.obs]

theorem mpscPbufPutWord_obs (item : Word) : (mpscPbufPutWord cfg s item).2.obs cfg s = [] := by
  simp only [mpscPbufPutWord]
  split
  · rfl
  · exact dropTurn_obs hmode _

theorem putWords_obs (words : List Word) : (putWords cfg s words).2.obs cfg s = [] := by
  simp only [putWords]
  split
  · rfl
  · split
    · rfl
    · exact dropTurn_obs hmode _

theorem mpscPbufAlloc_obs (wlen : Nat) (wait timedOut : Bool) :
    (mpscPbufAlloc cfg s wlen wait timedOut).2.obs cfg s = [] := by
  simp only [mpscPbufAlloc]
  split
  · rfl
  · split
    · rfl
    · split
      · rfl
      · split
        · cases timedOut <;> rfl
        · exact dropTurn_obs hmode _

end

theorem putObs_drops {words : List Word} {t : Turn} (h : t.obs cfg s = []) : drops (putObs cfg s words t) = [] := by
  cases t with
  | accepted item => rfl
  | again d => exact congrArg drops h
  | rejected => rfl

theorem step_drops (hmode : cfg.overwrite = false) (hgo : step cfg s ev = some (s', os)) : drops os = [] := by
  cases ev with
  | putWord item =>
    obtain ⟨_, _, rfl⟩ := putStep_eq hgo
    exact putObs_drops (mpscPbufPutWord_obs hmode item)
  | putWordExt item data =>
    obtain ⟨_, _, rfl⟩ := putStep_eq hgo
    exact putObs_drops (putWords_obs hmode _)
  | putData data =>
    obtain ⟨_, _, rfl⟩ := putStep_eq hgo
    exact putObs_drops (putWords_obs hmode _)
  | alloc wlen wait timedOut =>
    simp only [step] at hgo
    split at hgo <;> cases hgo
    have hobs := mpscPbufAlloc_obs (s := s) hmode wlen wait timedOut
    cases hturn : (mpscPbufAlloc cfg s wlen wait timedOut).2 with
    | accepted item => rfl
    | again d =>
      rw [hturn] at hobs
      exact congrArg drops hobs
    | rejected => rfl
  | fill item k w =>
    simp only [step] at hgo
    split at hgo <;> cases hgo
    rfl
  | commit item =>
    simp only [step] at hgo
    split at hgo <;> cases hgo
    rfl
  | claim =>
    simp only [step] at hgo
    split at hgo <;> cases hgo
    cases (mpscPbufClaim cfg s).2 <;> rfl
  | free =>
    obtain ⟨item, _, heq⟩ := map_eq_some_iff.mp hgo
    cases heq
    rfl

theorem run_drops (hmode : cfg.overwrite = false) (hgo : run cfg s evs = some (s', os)) : drops os = [] := by
  induction evs generalizing s os with
  | nil =>
    cases hgo
    rfl
  | cons ev evs ih =>
    obtain ⟨⟨s1, os1⟩, ⟨s2, os2⟩, hstep, hrun, ⟨⟩⟩ := Lib.Runs.of_bind_map hgo
    have happend : drops (os1 ++ os2) = drops os1 ++ drops os2 := filterMap_append ..
    rw [happend, step_drops hmode hstep, ih hrun]
    rfl

theorem reported_of_drops (h : drops os = []) : reported os = claims os := by
  refine filterMap_congr fun o ho => ?_
  cases o with
  | dropped item words =>
    have := filterMap_eq_nil_iff.mp h _ ho
    cases this
  | _ => rfl

/-- **Delivery without overwriting.** In every run whose puts fit, claim returns the accepted packets in the
order of allocation and with the words that were put; none is dropped, or changes before it is freed; and claim
returns null only if the oldest unclaimed packet is under construction, or there is none. -/
theorem delivered_in_order (hmode : cfg.overwrite = false) (hsize : cfg.size ≤ 2 ^ 30) (buf : Nat → Word)
    {evs : List Event} {s : Buffer} {os : List Obs} (hrun : run cfg (mpscPbufInit buf) evs = some (s, os))
    (hputs : Along cfg (PutFits cfg) (mpscPbufInit buf) evs) :
    claims os <+: (accepted os).map Entry.packet ∧ drops os = [] ∧ Intact s os ∧
      (s.held = none → ClaimNext cfg s os) := by
  obtain ⟨cs, hinv, hbooks⟩ := run_books hsize buf (hputs.mono fun _ _ hp => hp.stepOk hmode) hrun
  have hdrops := run_drops hmode hrun
  refine ⟨?_, hdrops, hinv.intact hbooks, hinv.claimNext hsize hbooks.waiting⟩
  rw [← reported_of_drops hdrops]
  exact hbooks.delivered_le

/-- A small buffer whose packets say their length in three bits. -/
def shortPackets (size : Nat) (two_le : 2 ≤ size) (size_lt : size < 2 ^ 32) (overwrite : Bool) : Config :=
  ⟨size, two_le, size_lt, overwrite, fun m => ((m 0).len &&& 7#30).toNat, by
    intro m m' hpos hsame
    have h0 := hsame 0 hpos
    simp only [if_true, Word.data, Word.mk.injEq, true_and] at h0
    rw [h0]⟩

def zeros : Nat → Word := fun _ => ⟨false, false, 0#30⟩

/-- The second of three packets is committed last, and the third needs padding in front of it. -/
def commitLast : List Event :=
  [.putWord ⟨true, false, 1#30⟩, .alloc 2 false false, .fill 1 0 ⟨false, false, 2#30⟩, .claim, .free, .claim,
    .fill 1 1 ⟨true, true, 9#30⟩, .commit 1, .claim, .free, .putData [⟨true, false, 2#30⟩, ⟨false, true, 5#30⟩],
    .putData [⟨true, false, 2#30⟩, ⟨false, true, 5#30⟩], .claim, .claim]

theorem delivered_in_order_four : ∃ s os,
    run (shortPackets 4 (by decide) (by decide) false) (mpscPbufInit zeros) commitLast = some (s, os) ∧
      claims os = [(0, [⟨false, false, 1#30⟩]), (1, [⟨false, false, 2#30⟩, ⟨true, true, 9#30⟩]),
        (0, [⟨false, false, 2#30⟩, ⟨false, true, 5#30⟩])] ∧
      claims os <+: (accepted os).map Entry.packet ∧ Intact s os := by
  refine Lib.Runs.exists_pair_that (R := fun _ os => claims os = [(0, [⟨false, false, 1#30⟩]),
    (1, [⟨false, false, 2#30⟩, ⟨true, true, 9#30⟩]), (0, [⟨false, false, 2#30⟩, ⟨false, true, 5#30⟩])])
    (by decide +kernel) fun s os hrun hend => ?_
  obtain ⟨hclaims, _, hintact, _⟩ := delivered_in_order rfl (by decide) zeros hrun (by decide +kernel)
  exact ⟨hend, hclaims, hintact⟩

/-- What an earlier use has left in the two words: padding and a packet. -/
def usedBefore : Nat → Word
  | 0 => ⟨false, true, 1#30⟩
  | _ => ⟨true, false, 1#30⟩

/-- A packet of two words is put, in two rounds, and rejected. -/
def oversizedPut : List Event :=
  [.putData [⟨true, false, 2#30⟩, ⟨false, true, 5#30⟩], .putData [⟨true, false, 2#30⟩, ⟨false, true, 5#30⟩], .claim]

/-- Claim returns what was never put. -/
theorem stale_packet_claimed : ∃ s os,
    run (shortPackets 2 (by decide) (by decide) false) (mpscPbufInit usedBefore) oversizedPut = some (s, os) ∧
      ¬ claims os <+: (accepted os).map Entry.packet := by
  set cfg := shortPackets 2 (by decide) (by decide) false
  set r := (run cfg (mpscPbufInit usedBefore) oversizedPut).get (by decide +kernel)
  have hget : run cfg (mpscPbufInit usedBefore) oversizedPut = some r := (some_get _).symm
  exact ⟨r.1, r.2, hget, by decide +kernel⟩

/-! ## Overwriting, one producer -/

/-- One stream of packets: each is committed before the next one is allocated, and none is oversized. -/
def OneStream (cfg : Config) (s : Buffer) : Event → Prop
  | .putWord _ => s.opens = []
  | .putWordExt _ data => s.opens = [] ∧ data.length + 1 < cfg.size
  | .putData data => s.opens = [] ∧ data.length < cfg.size
  | .alloc wlen _ _ => s.opens = [] ∧ wlen < cfg.size
  | _ => True

/-- A packet is not freed when dropping has come round to it. -/
def FreeFits (cfg : Config) (s : Buffer) : Event → Prop
  | .free => FreeOk cfg s
  | _ => True

instance (ev : Event) : Decidable (OneStream cfg s ev) := by
  cases ev <;> unfold OneStream <;> infer_instance

instance (ev : Event) : Decidable (FreeFits cfg s ev) := by
  cases ev <;> unfold FreeFits <;> (try unfold FreeOk) <;> infer_instance

theorem OneStream.stepOk (h : OneStream cfg s ev) (hfree : FreeFits cfg s ev) : StepOk cfg s ev := by
  have hdrop : s.opens = [] → ∀ wlen, DropOk cfg s wlen := fun hnone wlen _ _ _ o ho => by
    rw [hnone] at ho
    cases ho
  cases ev with
  | putWord item => exact ⟨.inl (Nat.lt_of_lt_of_le (by decide) cfg.two_le), hdrop h 1⟩
  | putWordExt item data => exact ⟨.inl h.2, hdrop h.1 _⟩
  | putData data => exact ⟨.inl h.2, hdrop h.1 _⟩
  | alloc wlen wait timedOut => exact fun _ => hdrop h.1 wlen
  | free => exact hfree
  | fill item k w => trivial
  | commit item => trivial
  | claim => trivial

/-- **Accounting when overwriting.** With one stream of packets, if no packet is freed when dropping has come
round to it, each is reported once, claimed or dropped, in the order of acceptance; what was claimed does not
change before it is freed; and the others are in the buffer, where claim finds them. -/
theorem accounts_for_each (hsize : cfg.size ≤ 2 ^ 30) (buf : Nat → Word) {evs : List Event} {s : Buffer} {os : List Obs}
    (hrun : run cfg (mpscPbufInit buf) evs = some (s, os)) (hone : Along cfg (OneStream cfg) (mpscPbufInit buf) evs)
    (hfree : Along cfg (FreeFits cfg) (mpscPbufInit buf) evs) :
    reported os <+: (accepted os).map Entry.packet ∧ Intact s os ∧ (s.held = none → ClaimNext cfg s os) := by
  obtain ⟨cs, hinv, hbooks⟩ := run_books hsize buf ((hone.and hfree).mono fun _ _ hp => hp.1.stepOk hp.2) hrun
  exact ⟨hbooks.delivered_le, hinv.intact hbooks, hinv.claimNext hsize hbooks.waiting⟩

def oneWord (w : BitVec 30) : Event := .putWord ⟨true, false, w <<< 3 ||| 1#30⟩

/-- The claimed packet is passed over, and becomes padding. -/
def dropPastClaimed : List Event :=
  [oneWord 1, oneWord 2, .claim, oneWord 3, oneWord 4, oneWord 4, oneWord 4, .free, .claim, .claim, .claim, .free,
    .alloc 1 false false, .fill 2 0 ⟨false, false, 49#30⟩, .commit 2, .claim]

theorem accounts_for_each_four : ∃ s os,
    run (shortPackets 4 (by decide) (by decide) true) (mpscPbufInit zeros) dropPastClaimed = some (s, os) ∧
      reported os <+: (accepted os).map Entry.packet ∧ drops os ≠ [] ∧ (claims os).length = 3 ∧ Intact s os := by
  refine Lib.Runs.exists_pair_that (R := fun _ os => drops os ≠ [] ∧ (claims os).length = 3) (by decide +kernel)
    fun s os hrun hend => ?_
  obtain ⟨hrep, hintact, _⟩ := accounts_for_each (by decide) zeros hrun (by decide +kernel) (by decide +kernel)
  exact ⟨hrep, hend.1, hend.2, hintact⟩

/-- Dropping goes once around the buffer while a packet is claimed, and then the packet is freed. -/
def dropAround : List Event :=
  [oneWord 1, .claim, oneWord 2, oneWord 3, oneWord 4, oneWord 4, oneWord 4, oneWord 5, oneWord 5, .free]

theorem claim_null {s : Buffer} (hheld : s.held = none)
    (hnull : (available cfg s).1 = 0 ∨ isInvalid (s.buf s.tmpRdIdx) = true) (k : Nat) :
    run cfg s (replicate k .claim) = some (s, replicate k .null) := by
  have hstep : step cfg s .claim = some (s, [.null]) := by
    simp only [step, if_pos hheld, mpscPbufClaim, if_pos hnull]
  induction k with
  | zero => rfl
  | succ k ih => simp [replicate_succ, run, hstep, ih]

/-- Two packets that were put are never returned: claim returns null from then on. -/
theorem packets_never_reported : ∃ s os,
    run (shortPackets 4 (by decide) (by decide) true) (mpscPbufInit zeros) dropAround = some (s, os) ∧
      Along (shortPackets 4 (by decide) (by decide) true) (OneStream (shortPackets 4 (by decide) (by decide) true))
        (mpscPbufInit zeros) dropAround ∧
      (waiting os).length = 2 ∧ (∀ e ∈ waiting os, e.committed = true) ∧
      ∀ k, run (shortPackets 4 (by decide) (by decide) true) s (replicate k .claim) =
        some (s, replicate k .null) := by
  set cfg := shortPackets 4 (by decide) (by decide) true
  refine Lib.Runs.exists_pair_that (R := fun s os => s.held = none ∧ ((available cfg s).1 = 0 ∨
    isInvalid (s.buf s.tmpRdIdx) = true) ∧ (waiting os).length = 2 ∧ ∀ e ∈ waiting os, e.committed = true)
    (by decide +kernel) fun s os _ ⟨hheld, hnull, hend⟩ => ?_
  exact ⟨by decide +kernel, hend.1, hend.2, claim_null hheld hnull⟩

/-! ## Overwriting, several producers -/

/-- The calls of producers that do not wait. -/
def Event.Producer : Event → Prop
  | .alloc _ wait _ => wait = false
  | .fill _ _ _ | .commit _ => True
  | _ => False

/-- A packet under construction is not the next one to be dropped. -/
def AllocFits (cfg : Config) (s : Buffer) : Event → Prop
  | .alloc wlen false _ => DropOk cfg s wlen
  | _ => True

instance (ev : Event) : Decidable ev.Producer := by
  cases ev <;> unfold Event.Producer <;> infer_instance

instance (wlen : Nat) : Decidable (DropOk cfg s wlen) := by
  unfold DropOk
  infer_instance

instance (ev : Event) : Decidable (AllocFits cfg s ev) := by
  cases ev with
  | alloc wlen wait timedOut => cases wait <;> unfold AllocFits <;> infer_instance
  | _ => exact isTrue trivial

theorem AllocFits.stepOk (h : AllocFits cfg s ev) (hev : ev.Producer) : StepOk cfg s ev := by
  cases ev with
  | alloc wlen wait timedOut =>
    cases hev
    exact fun _ => h
  | fill item k w => trivial
  | commit item => trivial
  | _ => cases hev

def Apart (item wlen item' wlen' : Nat) : Prop := item ≠ item' ∧ (item + wlen ≤ item' ∨ item' + wlen' ≤ item)

/-- What is seen leaves the words of a packet alone: they are not dropped and not handed out. -/
def Obs.LeavesAlone (e : Entry) : Obs → Prop
  | .dropped item words | .allocated item words | .stored item words => Apart item words.length e.item e.words.length
  | _ => True

/-- The words of the packet are between `rd_idx` and `tmp_wr_idx`. -/
def Reserved (cfg : Config) (s : Buffer) (e : Entry) : Prop :=
  (e.item + cfg.size - s.rdIdx) % cfg.size + e.words.length ≤ (s.tmpWrIdx + cfg.size - s.rdIdx) % cfg.size

theorem Inv.reserved (h : Inv cfg s cs) (hmem : .packet e b ∈ cs) : Reserved cfg s e := by
  obtain ⟨l, r, rfl⟩ := append_of_mem hmem
  obtain ⟨_, hat⟩ := h.at
  have hfits := h.fits
  simp only [total_append, total_cons, Chunk.len_packet] at hfits
  unfold Reserved
  rw [h.tmpWr, hat.1, mod_offset h.rd_lt (by omega), mod_offset h.rd_lt h.fits]
  simp only [total_append, total_cons, Chunk.len_packet]
  omega

theorem Inv.open_pending (h : Inv cfg s cs) (hmem : .packet e b ∈ cs) (hcom : e.committed = false) :
    e ∈ (ledger cs).pending := by
  refine mem_filterMap.mpr ⟨_, hmem, ?_⟩
  cases b with
  | false => rfl
  | true =>
    obtain ⟨l, r, rfl⟩ := append_of_mem hmem
    have hclaimed := h.at.2.2.2.2.2.2.1 rfl
    rw [hcom] at hclaimed
    cases hclaimed

theorem Inv.pending_apart (h : Inv cfg s cs) :
    (ledger cs).pending.Pairwise fun e e' => Apart e.item e.words.length e'.item e'.words.length := by
  have hpos : (ledger cs).pending = (positions cfg.size Chunk.len s.rdIdx cs).filterMap fun x => x.2.pending? := by
    conv_lhs => rw [ledger, ← positions_snd cfg.size Chunk.len s.rdIdx cs, filterMap_map]
    rfl
  rw [hpos, pairwise_filterMap]
  refine (h.placed.apart h.rd_lt h.fits.le).imp_of_mem fun {x y} hx hy hxy e he e' he' => ?_
  have hatx := (h.placed.at hx).2
  have haty := (h.placed.at hy).2
  obtain ⟨px, cx⟩ := x
  obtain ⟨py, cy⟩ := y
  have hcx : cx = .packet e false := by
    rcases cx with _ | ⟨e2, _ | _⟩ <;> cases he
    rfl
  have hcy : cy = .packet e' false := by
    rcases cy with _ | ⟨e2, _ | _⟩ <;> cases he'
    rfl
  subst hcx hcy
  obtain ⟨hitem, hlen, _⟩ := hatx
  obtain ⟨hitem', hlen', _⟩ := haty
  simp only [Chunk.len_packet] at hxy
  unfold Apart
  omega

theorem Moves.leaves_alone (hmove : Moves L o L')
    (hapart : L.pending.Pairwise fun e e' => Apart e.item e.words.length e'.item e'.words.length)
    (hapart' : L'.pending.Pairwise fun e e' => Apart e.item e.words.length e'.item e'.words.length)
    (he : e ∈ L.pending) (hopen : e.committed = false) : o.LeavesAlone e := by
  have hsymm : ∀ {i n i' n'}, Apart i n i' n' → Apart i' n' i n := fun h => ⟨h.1.symm, h.2.symm⟩
  cases hmove with
  | stored => exact hsymm ((pairwise_append.mp hapart').2.2 e he _ (mem_singleton_self _))
  | allocated => exact hsymm ((pairwise_append.mp hapart').2.2 e he _ (mem_singleton_self _))
  | dropped =>
    rcases mem_cons.mp he with rfl | he
    · cases hopen
    · exact (pairwise_cons.mp hapart).1 e he
  | _ => trivial

theorem step_obs (hgo : step cfg s ev = some (s', os)) : os.length ≤ 1 := by
  have hobs : ∀ t : Turn, (t.obs cfg s).length ≤ 1 := by
    intro t
    rcases t with _ | (_ | ⟨_, _ | _⟩) | _ <;> simp [Turn.obs]
  have hput : ∀ (ws : List Word) (r : Buffer × Turn), putStep cfg s ws r = some (s', os) → os.length ≤ 1 := by
    intro ws r hgo
    obtain ⟨_, _, rfl⟩ := putStep_eq hgo
    cases r.2 with
    | accepted item => exact le_rfl
    | again d => exact hobs (.again d)
    | rejected => exact hobs .rejected
  cases ev with
  | putWord item => exact hput _ _ hgo
  | putWordExt item data => exact hput _ _ hgo
  | putData data => exact hput _ _ hgo
  | alloc wlen wait timedOut =>
    simp only [step] at hgo
    split at hgo <;> cases hgo
    cases (mpscPbufAlloc cfg s wlen wait timedOut).2 with
    | accepted item => exact le_rfl
    | again d => exact hobs (.again d)
    | rejected => exact hobs .rejected
  | fill item k w =>
    simp only [step] at hgo
    split at hgo <;> cases hgo
    exact le_rfl
  | commit item =>
    simp only [step] at hgo
    split at hgo <;> cases hgo
    exact le_rfl
  | claim =>
    simp only [step] at hgo
    split at hgo <;> cases hgo
    cases (mpscPbufClaim cfg s).2 <;> simp
  | free =>
    obtain ⟨item, _, heq⟩ := map_eq_some_iff.mp hgo
    cases heq
    exact le_rfl

theorem run_split {os1 os2 : List Obs} (hgo : run cfg s evs = some (s', os1 ++ o :: os2)) :
    ∃ evs1 ev evs2 s1 s2, evs = evs1 ++ ev :: evs2 ∧ run cfg s evs1 = some (s1, os1) ∧ step cfg s1 ev = some (s2, [o]) := by
  induction evs generalizing s os1 with
  | nil => simp [run] at hgo
  | cons ev evs ih =>
    obtain ⟨⟨s1, osa⟩, ⟨s2, osb⟩, hstep, hrun, heq⟩ := Lib.Runs.of_bind_map hgo
    have hlen := step_obs hstep
    obtain ⟨rfl, happend⟩ : s2 = s' ∧ osa ++ osb = os1 ++ o :: os2 := by simpa using heq
    have hcons : ∀ {evs1 : List Event} {s3 : Buffer} {os3 : List Obs}, run cfg s1 evs1 = some (s3, os3) →
        run cfg s (ev :: evs1) = some (s3, osa ++ os3) := by
      intro evs1 s3 os3 h
      simp [run, hstep, h]
    match osa, hlen, happend, hstep with
    | [], _, happend, hstep =>
      subst happend
      obtain ⟨evs1, ev', evs2, s3, s4, rfl, hrun1, hstep1⟩ := ih hrun
      exact ⟨ev :: evs1, ev', evs2, s3, s4, rfl, hcons hrun1, hstep1⟩
    | [a], _, happend, hstep =>
      cases os1 with
      | nil =>
        cases happend
        exact ⟨[], ev, evs, s, s1, rfl, rfl, hstep⟩
      | cons b os1 =>
        obtain ⟨rfl, rfl⟩ : a = b ∧ osb = os1 ++ o :: os2 := by simpa using happend
        obtain ⟨evs1, ev', evs2, s3, s4, rfl, hrun1, hstep1⟩ := ih hrun
        exact ⟨ev :: evs1, ev', evs2, s3, s4, rfl, hcons hrun1, hstep1⟩

theorem Along.split {evs1 evs2 : List Event} {s1 : Buffer} {os1 : List Obs}
    (h : Along cfg P s (evs1 ++ ev :: evs2)) (hgo : run cfg s evs1 = some (s1, os1)) : Along cfg P s evs1 ∧ P s1 ev := by
  induction evs1 generalizing s os1 with
  | nil =>
    cases hgo
    exact ⟨trivial, h.1⟩
  | cons e evs1 ih =>
    obtain ⟨⟨s2, osa⟩, ⟨s3, osb⟩, hstep, hrun, ⟨⟩⟩ := Lib.Runs.of_bind_map hgo
    obtain ⟨hbefore, hev⟩ := ih (h.2 _ hstep) hrun
    refine ⟨⟨h.1, fun r hr => ?_⟩, hev⟩
    rw [hstep] at hr
    cases hr
    exact hbefore

theorem settled_eq (h : ∀ c ∈ cs, c.open? = none) : total Chunk.settled cs = total Chunk.len cs := by
  induction cs with
  | nil => rfl
  | cons c cs ih =>
    have hc : c.settled = c.len := by
      cases c with
      | pad n => rfl
      | packet e b =>
        have := h _ (mem_cons_self ..)
        cases hcom : e.committed with
        | true => exact Chunk.settled_committed b hcom
        | false =>
          rw [Chunk.open?_open b hcom] at this
          cases this
    rw [total_cons, total_cons, hc, ih fun c hc => h c (mem_cons_of_mem _ hc)]

/-- **Packets under construction when overwriting.** If the next packet to be dropped is never one under
construction, the words of such a packet are neither dropped nor handed out again, and `wr_idx` is `tmp_wr_idx`
whenever there is none. -/
theorem construction_protected (hsize : cfg.size ≤ 2 ^ 30) (buf : Nat → Word) {evs : List Event} {s : Buffer}
    {os : List Obs} (hrun : run cfg (mpscPbufInit buf) evs = some (s, os)) (hevs : ∀ ev ∈ evs, ev.Producer)
    (hallocs : Along cfg (AllocFits cfg) (mpscPbufInit buf) evs) :
    (∀ e ∈ accepted os, e.committed = false → Reserved cfg s e ∧ s.words e.item e.words.length = e.words) ∧
      (∀ os1 o os2, os = os1 ++ o :: os2 → ∀ e ∈ accepted os1, e.committed = false → o.LeavesAlone e) ∧
      ((∀ e ∈ accepted os, e.committed = true) → s.wrIdx = s.tmpWrIdx) := by
  have hok : Along cfg (StepOk cfg) (mpscPbufInit buf) evs :=
    (hallocs.and (Along.of_events (P := fun _ ev => ev.Producer) fun ev he _ => hevs ev he)).mono fun _ _ h => h.1.stepOk h.2
  obtain ⟨cs, hinv, hbooks⟩ := run_books hsize buf hok hrun
  refine ⟨fun e he hopen => ?_, fun os1 o os2 heq e he hopen => ?_, fun hall => ?_⟩
  · have hmem := mem_of_pending (hbooks.open_waiting he hopen)
    exact ⟨hinv.reserved hmem, hinv.words_of_mem hmem⟩
  · subst heq
    obtain ⟨evs1, ev, evs2, s1, s2, rfl, hrun1, hstep⟩ := run_split hrun
    obtain ⟨hok1, hev⟩ := hok.split hrun1
    obtain ⟨cs1, hinv1, hbooks1⟩ := run_books hsize buf hok1 hrun1
    obtain ⟨cs2, hinv2, L, hmove, rfl⟩ := step_follows hsize hinv1 hev hstep
    exact hmove.leaves_alone hinv1.pending_apart hinv2.pending_apart (hbooks1.open_waiting he hopen) hopen
  · rw [hinv.wr, hinv.tmpWr, settled_eq fun c hc => ?_]
    cases c with
    | pad n => rfl
    | packet e b =>
      cases hcom : e.committed with
      | true => exact Chunk.open?_committed b hcom
      | false =>
        have hwait := hinv.open_pending hc hcom
        obtain ⟨done, hacc, _⟩ := hbooks
        have := hall e (hacc ▸ mem_append_right _ hwait)
        rw [hcom] at this
        cases this

/-- Three producers; the first packet is committed last, and then dropped. -/
def commitsTurned : List Event :=
  [.alloc 1 false false, .alloc 2 false false, .fill 0 0 ⟨false, false, 1#30⟩, .fill 1 1 ⟨true, false, 9#30⟩,
    .fill 1 0 ⟨false, false, 2#30⟩, .commit 1, .commit 0, .alloc 1 false false, .alloc 1 false false]

theorem construction_protected_four : ∃ s os,
    run (shortPackets 4 (by decide) (by decide) true) (mpscPbufInit zeros) commitsTurned = some (s, os) ∧
      drops os = [(0, [⟨false, false, 1#30⟩])] ∧
      ∀ e ∈ accepted os, e.committed = false → Reserved (shortPackets 4 (by decide) (by decide) true) s e := by
  refine Lib.Runs.exists_pair_that (R := fun _ os => drops os = [(0, [⟨false, false, 1#30⟩])]) (by decide +kernel)
    fun s os hrun hend => ?_
  obtain ⟨hopen, _⟩ := construction_protected (by decide) zeros hrun (by decide) (by decide +kernel)
  exact ⟨hend, fun e he hcom => (hopen e he hcom).1⟩

/-- The first packet is still under construction when there is no room. -/
def keptOpen : List Event :=
  [.alloc 1 false false, .fill 0 0 ⟨false, false, 1#30⟩, .alloc 1 false false, .alloc 1 false false, .alloc 1 false false]

theorem open_packet_dropped : ∃ s os e,
    run (shortPackets 4 (by decide) (by decide) true) (mpscPbufInit zeros) keptOpen =
        some (s, os ++ [.dropped e.item e.words]) ∧
      (∀ ev ∈ keptOpen, ev.Producer) ∧ e ∈ accepted os ∧ e.committed = false := by
  set cfg := shortPackets 4 (by decide) (by decide) true
  set r := (run cfg (mpscPbufInit zeros) keptOpen).get (by decide +kernel)
  have hget : run cfg (mpscPbufInit zeros) keptOpen = some r := (some_get _).symm
  have hos : r.2 = r.2.dropLast ++ [.dropped 0 [⟨false, false, 1#30⟩]] := by decide +kernel
  refine ⟨r.1, r.2.dropLast, ⟨0, [⟨false, false, 1#30⟩], false⟩, ?_, by decide, by decide +kernel, rfl⟩
  rw [← hos]
  exact hget.trans (congrArg some Prod.mk.eta.symm)

end RtosKernel.Zephyr.MpscPbuf
