import SrkOS.Impl.AudioAtomics
import SrkOS.Proof.Audio.PingPong

/-!
# The half and the length of a read

What `ready_buffer_from` returns is in bounds, and of the half completed last;
its length is that of the swap that stored `ready_len` last before the first
load, which need not be the swap that completed that half. `paired_iff`: half
and length are of one swap exactly if these two swaps have the same valid
length. They have if they are one swap (`took_paired`): if no swap was midway at
the first load and none toggled before the second one, or only the one midway did
(`sameSwap_iff`). A reader between the two steps of a swap gets the new length with
the old half (`unpaired_read`).
-/

namespace SrkOS.Proof.AudioAtomics

open Framework SrkOS.Impl SrkOS.Impl.AudioAtomics

/-- The number of valid bytes of a swap's capture, 0 if there is none. -/
def validLen (len : Option Nat) : Nat := min (len.getD 0) I2S_FRAME_SIZE

/-- A slice is empty, or the valid part of the capture that its half holds: half
and length are those of one swap. -/
def IsCapture {ρ : Type} (s : State ρ) : Slice PingPong → Prop
  | .empty => True
  | .of half len => ∃ c, s.captures half = some c ∧ len = min c.len I2S_FRAME_SIZE ∧
      (s.frames.half half).take len = c.bytes.take (min c.len I2S_FRAME_SIZE)

/-- What a call of `ready_buffer_from` returns is a capture. -/
def Paired {ρ : Type} (s : State ρ) (a : Action ρ) : Prop :=
  ∀ r c, a = .loadActive r → s.calls r = some c →
    ∃ sl, s.state.readySlice s.frames c.len = .ok sl ∧ IsCapture s sl

/-- The swap that had stored `ready_len` last at a call's first load has the
valid length of the one that has toggled `active_is_pong` last at its second. -/
def SameLength {ρ : Type} (s : State ρ) (a : Action ρ) : Prop :=
  ∀ r c, a = .loadActive r → s.calls r = some c → validLen c.stored = validLen s.toggled

/-! ## The invariant -/

structure Inv {ρ : Type} (s : State ρ) : Prop where
  stored : s.state.readyLen = validLen s.stored
  /-- The ready half is that of the swap that has toggled last. -/
  toggled : (s.captures s.state.ready).map Capture.len = s.toggled
  /-- It holds its capture. -/
  ready : ∀ c, s.captures s.state.ready = some c → s.frames.half s.state.ready = c.bytes
  calls : ∀ r c, s.calls r = some c → c.len = validLen c.stored ∧ c.len ≠ 0

theorem validLen_le (len : Option Nat) : validLen len ≤ I2S_FRAME_SIZE := Nat.min_le_right _ _

theorem call_eq_some {len : Nat} {stored : Option Nat} {c : Call}
    (h : call len stored = some c) : c = ⟨len, stored⟩ ∧ len ≠ 0 := by
  unfold call at h
  by_cases h0 : len = 0
  · simp [h0] at h
  · rw [if_neg h0, Option.some.injEq] at h
    exact ⟨h.symm, h0⟩

theorem inv_initial (ρ : Type) : Inv (initial ρ) := ⟨rfl, rfl, nofun, nofun⟩

section

variable {ρ : Type} [DecidableEq ρ] {s s' : State ρ} {a : Action ρ}

theorem Inv.step (h : Inv s) (hs : Step s a s') : Inv s' := by
  cases hs with
  | write i byte hs =>
    refine ⟨h.stored, h.toggled, fun c hc => ?_, h.calls⟩
    rw [← h.ready c hc]
    exact Audio.half_write_ne _ (Audio.other_ne _) i byte
  | storeReadyLen len hs => exact ⟨rfl, h.toggled, h.ready, h.calls⟩
  | @toggleActive len hs =>
    refine ⟨h.stored, ?_, ?_, h.calls⟩
    · simp only [Audio.toggleActive_ready, Function.update_self, Option.map_some]
    · intro c hc
      simp only [Audio.toggleActive_ready, Function.update_self, Option.some.injEq] at hc ⊢
      rw [← hc]
  | @loadReadyLen r hr =>
    refine ⟨h.stored, h.toggled, h.ready, forall_update h.calls r fun c hc => ?_⟩
    obtain ⟨rfl, h0⟩ := call_eq_some hc
    exact ⟨h.stored, h0⟩
  | @loadActive r c sl hr hsl =>
    exact ⟨h.stored, h.toggled, h.ready, forall_update h.calls r (by simp)⟩

theorem always_inv {h : List (State ρ × Action ρ)} (hr : Run (system ρ) h s) : Always Inv h s :=
  hr.always (fun _ hi => by rw [hi]; exact inv_initial ρ) fun _ _ _ => Inv.step

end

/-! ## Calls -/

section

variable {ρ : Type} {s : State ρ}

/-- A call's slice is in bounds, and of the ready half. -/
theorem Inv.readySlice (h : Inv s) {r : ρ} {c : Call} (hc : s.calls r = some c) :
    s.state.readySlice s.frames c.len = .ok (.of s.state.ready c.len) :=
  Audio.readySlice_ok _ _ (by rw [(h.calls r c hc).1]; exact validLen_le _)

/-- The slice of the ready half is a capture exactly if its length is that of
the swap that has toggled last. -/
theorem Inv.isCapture_iff (h : Inv s) {len : Nat} (h0 : len ≠ 0) :
    IsCapture s (.of s.state.ready len) ↔ len = validLen s.toggled := by
  rw [← h.toggled]
  refine ⟨fun ⟨c, hc, hlen, _⟩ => ?_, fun hlen => ?_⟩
  · rw [hlen, hc]
    rfl
  · cases hc : s.captures s.state.ready with
    | none =>
      rw [hc] at hlen
      exact absurd hlen h0
    | some c =>
      rw [hc] at hlen
      change len = min c.len I2S_FRAME_SIZE at hlen
      have hready := h.ready c hc
      exact ⟨c, hc, hlen, by rw [hready, hlen]⟩

theorem Inv.paired_iff_sameLength (h : Inv s) (a : Action ρ) : Paired s a ↔ SameLength s a := by
  refine forall_congr' fun r => forall_congr' fun c => forall₂_congr fun _ hc => ?_
  obtain ⟨hlen, h0⟩ := h.calls r c hc
  rw [← hlen, ← h.isCapture_iff h0, h.readySlice hc]
  refine ⟨fun ⟨sl, hsl, hcap⟩ => ?_, fun hcap => ⟨_, rfl, hcap⟩⟩
  rw [Except.ok.injEq] at hsl
  rw [hsl]
  exact hcap

theorem sameLength_of_ne {a : Action ρ} (h : ∀ r, a ≠ .loadActive r) : SameLength s a :=
  fun r _ ha _ => absurd ha (h r)

end

/-! ## Which swap a call reads

Swaps come one at a time, so that they store and toggle in one order, and their numbers
in it tell them apart.
-/

section

variable {ρ : Type}

/-- The swaps that have stored `ready_len`. -/
def stores : List (State ρ × Action ρ) → Nat
  | [] => 0
  | (_, .storeReadyLen _) :: h => stores h + 1
  | _ :: h => stores h

/-- The swaps that have toggled `active_is_pong`. -/
def toggles : List (State ρ × Action ρ) → Nat
  | [] => 0
  | (_, .toggleActive) :: h => toggles h + 1
  | _ :: h => toggles h

/-- A swap has stored and not toggled. -/
def midway : List (State ρ × Action ρ) → Bool
  | [] => false
  | (_, .storeReadyLen _) :: _ => true
  | (_, .toggleActive) :: _ => false
  | _ :: h => midway h

variable [DecidableEq ρ]

/-- The swaps that had stored when `r` loaded `ready_len`. -/
def storesAtLoad (r : ρ) : List (State ρ × Action ρ) → Nat
  | [] => 0
  | (_, .loadReadyLen r') :: h => if r' = r then stores h else storesAtLoad r h
  | _ :: h => storesAtLoad r h

/-- A swap was midway when `r` loaded `ready_len`. -/
def midwayAtLoad (r : ρ) : List (State ρ × Action ρ) → Bool
  | [] => false
  | (_, .loadReadyLen r') :: h => if r' = r then midway h else midwayAtLoad r h
  | _ :: h => midwayAtLoad r h

/-- The swaps that have toggled since `r` loaded `ready_len`. -/
def togglesSince (r : ρ) : List (State ρ × Action ρ) → Nat
  | [] => 0
  | (_, .loadReadyLen r') :: h => if r' = r then 0 else togglesSince r h
  | (_, .toggleActive) :: h => togglesSince r h + 1
  | _ :: h => togglesSince r h

/-- The swap that had stored last when `r` loaded `ready_len` is the one that has toggled
last. -/
def SameSwap (r : ρ) (h : List (State ρ × Action ρ)) : Prop := storesAtLoad r h = toggles h

/-- Each call read of one swap. -/
def Scheduled : List (State ρ × Action ρ) → Prop
  | [] => True
  | (_, .loadActive r) :: h => SameSwap r h ∧ Scheduled h
  | _ :: h => Scheduled h

variable {h : List (State ρ × Action ρ)} {s : State ρ}

/-- All swaps have toggled that have stored, but for the one midway. -/
theorem run_stores (hr : Run (system ρ) h s) :
    stores h = toggles h + (midway h).toNat ∧ midway h = s.swapping.isSome := by
  induction hr with
  | start hi =>
    rw [hi]
    exact ⟨rfl, rfl⟩
  | next hr hs ih =>
    obtain ⟨hcount, hmid⟩ := ih
    cases hs with
    | write | loadReadyLen | loadActive => exact ⟨hcount, hmid⟩
    | storeReadyLen len hs =>
      rw [hmid, hs] at hcount
      exact ⟨congrArg (· + 1) hcount, rfl⟩
    | toggleActive hs =>
      rw [hmid, hs] at hcount
      exact ⟨hcount, rfl⟩

/-- The numbers of the swaps that a call has to do with. -/
theorem run_storesAtLoad (hr : Run (system ρ) h s) (r : ρ) :
    storesAtLoad r h + togglesSince r h = toggles h + (midwayAtLoad r h).toNat := by
  induction hr with
  | start => rfl
  | next hr hs ih =>
    cases hs with
    | write | storeReadyLen | loadActive => exact ih
    | toggleActive =>
      simp only [storesAtLoad, togglesSince, toggles, midwayAtLoad]
      omega
    | @loadReadyLen r' =>
      simp only [storesAtLoad, togglesSince, toggles, midwayAtLoad]
      by_cases he : r' = r
      · simp only [if_pos he]
        exact (run_stores hr).1
      · simp only [if_neg he]
        exact ih

/-- The swap is the same if none was midway at the first load and none has toggled
since, or one was and no other one has toggled since; and only then. -/
theorem sameSwap_iff (hr : Run (system ρ) h s) (r : ρ) :
    SameSwap r h ↔ midwayAtLoad r h = false ∧ togglesSince r h = 0 ∨
      midwayAtLoad r h = true ∧ togglesSince r h = 1 := by
  have hcount := run_storesAtLoad hr r
  rw [SameSwap]
  cases hm : midwayAtLoad r h with
  | false =>
    simp only [hm, Bool.toNat_false] at hcount
    simp only [true_and, Bool.false_eq_true, false_and, or_false]
    omega
  | true =>
    simp only [hm, Bool.toNat_true] at hcount
    simp only [Bool.true_eq_false, true_and, false_and, false_or]
    omega

/-- What the lengths of the swaps have to do with their numbers. -/
structure Numbered (h : List (State ρ × Action ρ)) (s : State ρ) : Prop where
  idle : s.swapping = none → s.stored = s.toggled
  swapping : ∀ len, s.swapping = some len → s.stored = some len
  calls : ∀ r c, s.calls r = some c → storesAtLoad r h ≤ stores h ∧
    (storesAtLoad r h = stores h → c.stored = s.stored) ∧ (SameSwap r h → c.stored = s.toggled)

theorem Numbered.step {s' : State ρ} {a : Action ρ} (hn : Numbered h s)
    (hr : Run (system ρ) h s) (hs : Step s a s') : Numbered ((s, a) :: h) s' := by
  obtain ⟨hcount, hmid⟩ := run_stores hr
  cases hs with
  | write => exact ⟨hn.idle, hn.swapping, hn.calls⟩
  | storeReadyLen len hs =>
    refine ⟨nofun, fun len' hl => hl, fun r c hc => ?_⟩
    obtain ⟨hle, -, hsame⟩ := hn.calls r c hc
    exact ⟨Nat.le_succ_of_le hle, fun heq => absurd heq (Nat.ne_of_lt (Nat.lt_succ_of_le hle)),
      hsame⟩
  | @toggleActive len hs =>
    have hstored := hn.swapping len hs
    refine ⟨fun _ => hstored, nofun, fun r c hc => ?_⟩
    obtain ⟨hle, hlast, -⟩ := hn.calls r c hc
    -- the swap that toggles is the one that stored last
    refine ⟨hle, hlast, fun hsame => (hlast ?_).trans hstored⟩
    rw [hmid, hs] at hcount
    exact Eq.trans hsame hcount.symm
  | @loadReadyLen r' =>
    refine ⟨hn.idle, hn.swapping, fun r c hc => ?_⟩
    by_cases he : r = r'
    · subst he
      simp only [Function.update_self] at hc
      obtain ⟨rfl, -⟩ := call_eq_some hc
      have hload : storesAtLoad r ((s, .loadReadyLen r) :: h) = stores h := if_pos rfl
      refine ⟨Nat.le_of_eq hload, fun _ => rfl, fun hsame => hn.idle ?_⟩
      have hsame : stores h = toggles h := hload.symm.trans hsame
      cases hsw : s.swapping with
      | none => rfl
      | some len =>
        rw [hmid, hsw, hsame, Option.isSome_some, Bool.toNat_true] at hcount
        omega
    · simp only [Function.update_of_ne he] at hc
      simp only [SameSwap, storesAtLoad, if_neg (Ne.symm he)]
      exact hn.calls r c hc
  | @loadActive r' =>
    refine ⟨hn.idle, hn.swapping, fun r c hc => ?_⟩
    by_cases he : r = r'
    · simp [he] at hc
    · simp only [Function.update_of_ne he] at hc
      exact hn.calls r c hc

theorem run_numbered (hr : Run (system ρ) h s) : Numbered h s := by
  induction hr with
  | start hi =>
    rw [hi]
    exact ⟨fun _ => rfl, nofun, nofun⟩
  | next hr hs ih => exact ih.step hr hs

/-- A call that reads of one swap has its length. -/
theorem stored_eq_toggled (hr : Run (system ρ) h s) {r : ρ} {c : Call} (hc : s.calls r = some c)
    (hsame : SameSwap r h) : c.stored = s.toggled :=
  ((run_numbered hr).calls r c hc).2.2 hsame

theorem took_sameLength (hr : Run (system ρ) h s) (hsched : Scheduled h) : Took SameLength h := by
  induction hr with
  | start => exact took_nil _
  | @next h s s' a hr hs ih =>
    cases hs with
    | write | storeReadyLen | toggleActive | loadReadyLen =>
      exact took_cons.mpr ⟨sameLength_of_ne nofun, ih hsched⟩
    | loadActive =>
      refine took_cons.mpr ⟨fun r c ha hc => ?_, ih hsched.2⟩
      obtain rfl := Action.loadActive.inj ha
      rw [stored_eq_toggled hr hc hsched.1]

/-- In a run in which each call reads of one swap, all calls return captures. -/
theorem took_paired (hr : Run (system ρ) h s) (hsched : Scheduled h) : Took Paired h := by
  have hsame := took_sameLength hr hsched
  exact fun e he => (((always_inv hr).2 e he).paired_iff_sameLength e.2).mpr (hsame e he)

end

/-- In every run, no call of `ready_buffer_from` slices out of bounds; and all
of them return captures exactly if, for each, the swap that had stored last at
its first load has the valid length of the one that has toggled last at its
second. -/
theorem paired_iff {ρ : Type} [DecidableEq ρ] {h : List (State ρ × Action ρ)} {s : State ρ}
    (hr : Run (system ρ) h s) :
    (∀ r c, s.calls r = some c → ∃ sl, s.state.readySlice s.frames c.len = .ok sl) ∧
    (Took Paired h ↔ Took SameLength h) := by
  have hinv := always_inv hr
  refine ⟨fun r c hc => ⟨_, hinv.last.readySlice hc⟩, ?_⟩
  exact forall₂_congr fun e he => (hinv.2 e he).paired_iff_sameLength e.2

/-- A first swap. -/
theorem run_swap (len : Nat) : ∃ h s, Run (system Unit) h s ∧
    h.map Prod.snd = [.toggleActive, .storeReadyLen len] ∧ Took SameLength h ∧
    s.state = PingPongState.new.swap len ∧ s.swapping = none ∧ s.stored = some len ∧
    s.toggled = some len ∧ s.calls () = none ∧ ∃ c, s.captures .ping = some c ∧ c.len = len := by
  have r₁ := Run.next (M := system Unit) (.start rfl) (.storeReadyLen len rfl)
  have r₂ := r₁.next (.toggleActive rfl)
  refine ⟨_, _, r₂, rfl, ?_, rfl, rfl, rfl, rfl, rfl, _, rfl, rfl⟩
  exact took_cons.mpr ⟨sameLength_of_ne nofun, took_cons.mpr ⟨sameLength_of_ne nofun, took_nil _⟩⟩

/-- A read after a swap of length 10. -/
theorem paired_read : ∃ h s, Run (system Unit) h s ∧
    h.map Prod.snd =
      [.loadActive (), .loadReadyLen (), .toggleActive, .storeReadyLen 10] ∧
    Took Paired h := by
  obtain ⟨h, s, hr, hacts, ht, hstate, -, hstored, htoggled, hcalls, -⟩ := run_swap 10
  have hcall : call s.state.readyLen s.stored = some ⟨10, some 10⟩ := by rw [hstate, hstored]; rfl
  have hl := hr.next (.loadReadyLen hcalls)
  simp only [hcall] at hl
  have hslice := Audio.readySlice_ok s.state s.frames (show 10 ≤ I2S_FRAME_SIZE by decide)
  have ha := hl.next (.loadActive (r := ()) (c := ⟨10, some 10⟩) rfl hslice)
  refine ⟨_, _, ha, by rw [List.map_cons, List.map_cons, hacts], (paired_iff ha).2.mpr ?_⟩
  refine took_cons.mpr ⟨?_, took_cons.mpr ⟨sameLength_of_ne nofun, ht⟩⟩
  intro r c _ hc
  have hc' : ⟨10, some 10⟩ = c := Option.some.inj hc
  rw [← hc']
  exact congrArg validLen htoggled.symm

/-- After a swap of length 10 into ping, a swap into pong has stored its length
20: a reader gets 20 bytes of ping. -/
theorem unpaired_read : ∃ h s, Run (system Unit) h s ∧
    h.map Prod.snd =
      [.loadReadyLen (), .storeReadyLen 20, .toggleActive, .storeReadyLen 10] ∧
    (∃ c, s.calls () = some c ∧ s.state.readySlice s.frames c.len = .ok (.of .ping 20)) ∧
    (∃ c, s.captures .ping = some c ∧ c.len = 10) ∧
    ¬ Paired s (.loadActive ()) := by
  obtain ⟨h, s, hr, hacts, -, hstate, hswap, -, htoggled, hcalls, hping⟩ := run_swap 10
  have hs := hr.next (.storeReadyLen 20 hswap)
  have hl := hs.next (.loadReadyLen hcalls)
  have hcall : call (s.state.storeReadyLen 20).readyLen (some 20) = some ⟨20, some 20⟩ := rfl
  simp only [hcall] at hl
  have hready : (s.state.storeReadyLen 20).ready = .ping := by rw [hstate]; rfl
  have hslice := Audio.readySlice_ok (s.state.storeReadyLen 20) s.frames
    (show 20 ≤ I2S_FRAME_SIZE by decide)
  rw [hready] at hslice
  refine ⟨_, _, hl, by rw [List.map_cons, List.map_cons, hacts], ⟨_, rfl, hslice⟩, hping,
    fun hp => ?_⟩
  have hlen := ((always_inv hl).last.paired_iff_sameLength _).mp hp () _ rfl rfl
  rw [htoggled] at hlen
  revert hlen
  decide

end SrkOS.Proof.AudioAtomics
