import BankedMemory.Proofs.Client.Lists
import BankedMemory.Proofs.Stack.Release

/-!
# The chain of a stack

How many segments a stack has is decided by the greatest number of values it has ever held, and how
many of them are full by the number it holds now. `stack_chain_shape` says so after any calls, and
that freeing the stack gives back just those segments.
-/

namespace BankedMemory

/-- The segments of a stack that holds `n` values and has held `m` at the most. -/
structure Chain (a : Arena) (s : Stack) (m n : Nat) (segs : List Handle) : Prop where
  chain : a.chain s.handle = .ok segs
  head : segs.head? = some s.handle
  nodup : segs.Nodup
  live : ∀ seg ∈ segs, a.Live seg
  length : segs.length = 1 + m / segmentSize
  count : s.count a = .ok n
  header : ∀ (k : Nat) (seg : Handle), segs[k]? = some seg →
    a.header seg = .ok ⟨segs[k + 1]?, min segmentSize (n - segmentSize * k)⟩
  /-- The segments before the first that is not full are full, those after it are empty. -/
  filled : ∀ (k : Nat) (seg : Handle) (hd : Header), segs[k]? = some seg → a.header seg = .ok hd →
    (k < n / segmentSize → hd.top = segmentSize) ∧ (k = n / segmentSize → hd.top < segmentSize) ∧
      (n / segmentSize < k → hd.top = 0)
  last : ∀ (seg : Handle) (hd : Header), segs.getLast? = some seg → a.header seg = .ok hd →
    hd.next = none ∧ hd.top < segmentSize

namespace History

/-- The greatest number of values a stack has held since it was made, after one more call. -/
def peakAfter (h : History) (call : Arena.Call) (peak : Stack → Nat) (s : Stack) : Nat :=
  max (if s ∈ h.now.liveStacks then peak s else 0) ((h.step call).now.list s).length

/-- The histories of a client, with the greatest number of values each stack has held. -/
inductive Peaks (extra : Prop) (limit : Nat) : History → (Stack → Nat) → Prop where
  | start : Peaks extra limit (.start limit) fun _ => 0
  | call {h : History} {peak : Stack → Nat} {call : Arena.Call} (run : Peaks extra limit h peak)
      (may : call.May extra h) : Peaks extra limit (h.step call) (h.peakAfter call peak)

/-- Every run has its peaks. -/
theorem Run.peaks {extra : Prop} {limit : Nat} {h : History} (hr : h.Run extra limit) :
    ∃ peak, h.Peaks extra limit peak := by
  induction hr with
  | start => exact ⟨_, .start⟩
  | call _ may ih =>
    obtain ⟨peak, hp⟩ := ih
    exact ⟨_, .call hp may⟩

end History

/-- Each stack has one segment more than it had to fill, and holds no more than it has held. -/
def Peaked (h : History) (l : Ledger) (peak : Stack → Nat) : Prop :=
  ∀ s ∈ h.now.liveStacks, (l.held (.stack s)).length = 1 + peak s / segmentSize ∧
    (l.values (.stack s)).length ≤ peak s

variable {extra : Prop} {terms : Terms} {base limit m : Nat} {h : History} {l l' : Ledger}
  {log log' : Nat → List Record} {a b : Arena} {call : Arena.Call} {reply : Reply} {s : Stack}
  {segs : List Handle} {vals : List Object} {peak : Stack → Nat}

theorem Arena.Laid.chain_shape (hs : a.Sound) (hl : a.Laid segs vals)
    (hd : segs.head? = some s.handle) (hlength : segs.length = 1 + m / segmentSize) :
    Chain a s m vals.length segs := by
  have hheader : ∀ (k : Nat) (seg : Handle), segs[k]? = some seg →
      a.header seg = .ok ⟨segs[k + 1]?, min segmentSize (vals.length - segmentSize * k)⟩ :=
    fun k seg hk => by rw [hl.header_eq hs hk, length_block]
  have htop : ∀ (k : Nat) (seg : Handle) (hd : Header), segs[k]? = some seg →
      a.header seg = .ok hd →
      hd = ⟨segs[k + 1]?, min segmentSize (vals.length - segmentSize * k)⟩ := fun k seg hd hk hhd =>
    Except.ok.inj (hhd.symm.trans (hheader k seg hk))
  refine ⟨hl.chain_eq hs hd, hd, hl.nodup, fun _ => hl.live, hlength, hl.count_eq hs hd, hheader,
    fun k seg hd hk hhd => ?_, fun seg hd hlast hhd => ?_⟩
  · rw [htop k seg hd hk hhd]
    simp only [segmentSize]
    omega
  · have hpos : 0 < segs.length := Nat.zero_lt_of_lt hl.current_lt
    have hk : segs[segs.length - 1]? = some seg := by rw [← List.getLast?_eq_getElem?, hlast]
    have hnext : segs[segs.length - 1 + 1]? = none := List.getElem?_eq_none (by omega)
    have hroom := hl.room
    rw [htop _ seg hd hk hhd]
    refine ⟨hnext, ?_⟩
    simp only [segmentSize] at *
    omega

/-! ## One call -/

namespace Account

/-- What has to be known of the segments after a call. -/
theorem peaked_step (hA : Account terms (h.step call) l' log')
    (hrows : ∀ s ∈ (h.step call).now.liveStacks, (l'.held (.stack s)).length =
      1 + max (if s ∈ h.now.liveStacks then peak s else 0) (l'.values (.stack s)).length /
        segmentSize) : Peaked (h.step call) l' (h.peakAfter call peak) := by
  intro s hs
  unfold History.peakAfter
  rw [hA.list_eq hs]
  exact ⟨hrows s hs, Nat.le_max_right ..⟩

/-- A stack that is as it was. -/
theorem rows_of_same (hp : Peaked h l peak) (hs : s ∈ h.now.liveStacks)
    (hsame : l'.held (.stack s) = l.held (.stack s) ∧ l'.values (.stack s) = l.values (.stack s)) :
    (l'.held (.stack s)).length =
      1 + max (if s ∈ h.now.liveStacks then peak s else 0) (l'.values (.stack s)).length /
        segmentSize := by
  obtain ⟨hlength, hle⟩ := hp s hs
  rw [hsame.1, hsame.2, if_pos hs, Nat.max_eq_left hle, hlength]

/-- A call on one stack, which has the segments `rows` and the values `vals` after it. -/
theorem peaked_of_set {rows : List Handle} (hp : Peaked h l peak)
    (hrun : call.run h.now.arena = .ok reply b) (hsave : call ≠ .save) (hrestore : call ≠ .restore)
    (hlive : (h.now.settle call reply b).liveStacks = h.now.liveStacks)
    (hA : Account terms ⟨h.now.settle call reply b, h.past⟩ (l.set (.stack s) rows vals) log)
    (hrows : s ∈ h.now.liveStacks → rows.length = 1 + max (peak s) vals.length / segmentSize) :
    ∃ l' log', Account terms (h.step call) l' log' ∧
      Peaked (h.step call) l' (h.peakAfter call peak) := by
  have hstep := History.step_of_ok hrun hsave hrestore
  rw [← hstep] at hA
  refine ⟨_, log, hA, hA.peaked_step fun p hp' => ?_⟩
  have hbefore : p ∈ h.now.liveStacks := by
    rw [hstep] at hp'
    exact hlive ▸ hp'
  rcases eq_or_ne p s with rfl | hne
  · rw [Ledger.held_set_self, Ledger.values_set_self, if_pos hbefore]
    exact hrows hbefore
  · exact rows_of_same hp hbefore (stack_other hne)

/-- A call that fails, and changes nothing. -/
theorem peaked_of_refused (hA : Account terms h l log) (hp : Peaked h l peak) {f : Fault}
    (hrun : call.run h.now.arena = .error f h.now.arena) :
    ∃ l' log', Account terms (h.step call) l' log' ∧
      Peaked (h.step call) l' (h.peakAfter call peak) := by
  have hstep : h.step call = h := History.step_of_error_same hrun
  have hA' : Account terms (h.step call) l log := hstep.symm ▸ hA
  exact ⟨l, log, hA', hA'.peaked_step fun s hs => rows_of_same hp (hstep ▸ hs) ⟨rfl, rfl⟩⟩

/-- A push links a segment just when the stack comes to hold more than its segments are for. -/
theorem peaked_push (hA : Account terms h l log) (hp : Peaked h l peak)
    (hs : s ∈ h.now.liveStacks) (o : Object) :
    ∃ l' log', Account terms (h.step (.push s o)) l' log' ∧
      Peaked (h.step (.push s o)) l' (h.peakAfter (.push s o) peak) := by
  obtain ⟨hlength, hle⟩ := hp s hs
  rcases hA.push_call hs o with ⟨rows, b, hrun, hrows, hAb, -⟩ | ⟨f, hrun, -⟩
  · refine peaked_of_set hp (EStateM.bind_of_ok hrun) (by simp) (by simp) rfl hAb fun _ => ?_
    have hlaid := hAb.laid_stack (s := s) hs
    rw [Ledger.held_set_self, Ledger.values_set_self] at hlaid
    have hroom := hlaid.room
    rw [List.length_append, List.length_singleton] at hroom ⊢
    rcases hrows with rfl | ⟨hfilled, new, rfl⟩
    · simp only [segmentSize] at *
      omega
    · rw [List.length_append, List.length_singleton]
      simp only [segmentSize] at *
      omega
  · exact hA.peaked_of_refused hp (EStateM.bind_of_error hrun)

/-- Values taken away or replaced leave the segments. -/
theorem peaked_of_revalue (hp : Peaked h l peak) (hs : s ∈ h.now.liveStacks)
    (hrun : call.run h.now.arena = .ok reply b) (hsave : call ≠ .save) (hrestore : call ≠ .restore)
    (hlive : (h.now.settle call reply b).liveStacks = h.now.liveStacks)
    (hAb : Account terms ⟨h.now.settle call reply b, h.past⟩
      (l.set (.stack s) (l.held (.stack s)) vals) log)
    (hvals : vals.length ≤ (l.values (.stack s)).length) :
    ∃ l' log', Account terms (h.step call) l' log' ∧
      Peaked (h.step call) l' (h.peakAfter call peak) := by
  obtain ⟨hlength, hle⟩ := hp s hs
  refine peaked_of_set hp hrun hsave hrestore hlive hAb fun _ => ?_
  rw [hlength, Nat.max_eq_left (Nat.le_trans hvals hle)]

theorem peaked_newStack (hA : Account terms h l log) (hp : Peaked h l peak) :
    ∃ l' log', Account terms (h.step .newStack) l' log' ∧
      Peaked (h.step .newStack) l' (h.peakAfter .newStack peak) := by
  rcases hA.newStack_call with ⟨k, b, hrun, hnew, hAb, -⟩ | ⟨f, hrun, -⟩
  · have hok : Arena.Call.newStack.run h.now.arena = .ok (.handle k) b := EStateM.bind_of_ok hrun
    have hstep := History.step_of_ok hok (by simp) (by simp)
    refine ⟨_, log, hstep.symm ▸ hAb, (hstep.symm ▸ hAb).peaked_step fun p hp' => ?_⟩
    rw [hstep] at hp'
    rcases List.mem_cons.mp hp' with rfl | hbefore
    · rw [Ledger.held_set_self, Ledger.values_set_self, if_neg hnew]
      rfl
    · exact rows_of_same hp hbefore (stack_other fun heq => hnew (heq ▸ hbefore))
  · exact hA.peaked_of_refused hp (EStateM.bind_of_error hrun)

theorem peaked_freeStack (hA : Account terms h l log) (hp : Peaked h l peak)
    (hs : s ∈ h.now.liveStacks) :
    ∃ l' log', Account terms (h.step (.freeStack s)) l' log' ∧
      Peaked (h.step (.freeStack s)) l' (h.peakAfter (.freeStack s) peak) := by
  obtain ⟨b, hrun, hAb, -⟩ := hA.freeStack_call hs
  have hok : (Arena.Call.freeStack s).run h.now.arena = .ok .done b := EStateM.bind_of_ok hrun
  have hstep := History.step_of_ok hok (by simp) (by simp)
  refine ⟨_, log, hstep.symm ▸ hAb, (hstep.symm ▸ hAb).peaked_step fun p hp' => ?_⟩
  rw [hstep] at hp'
  obtain ⟨hne, hbefore⟩ := hA.liveStacks_nodup.mem_erase_iff.mp hp'
  exact rows_of_same hp hbefore (stack_other hne)

/-- A call that is about no stack of the client leaves them all. -/
theorem peaked_of_kept (hA : Account (.plain extra) h l log) (hp : Peaked h l peak)
    (may : call.May extra h) (hchanged : call.changed = none) (hnew : call ≠ .newStack) :
    ∃ l' log', Account (.plain extra) (h.step call) l' log' ∧
      Peaked (h.step call) l' (h.peakAfter call peak) := by
  obtain ⟨l', log', hkept⟩ := hA.step rfl may
  have hfree : ∀ s, call ≠ .freeStack s := by
    rintro s rfl
    cases hchanged
  have hne : ∀ s, call.changed ≠ some s := fun s => by
    rw [hchanged]
    exact nofun
  refine ⟨l', log', hkept.account, hkept.account.peaked_step fun s hs => ?_⟩
  rw [History.liveStacks_step hnew hfree] at hs
  exact rows_of_same hp hs ⟨hkept.rows s hs (hne s), (hkept.values s hs (hne s)).2⟩

theorem peaked (hA : Account (.plain extra) h l log) (hp : Peaked h l peak)
    (may : call.May extra h) : ∃ l' log', Account (.plain extra) (h.step call) l' log' ∧
      Peaked (h.step call) l' (h.peakAfter call peak) := by
  cases call with
  | newStack => exact hA.peaked_newStack hp
  | push s o => exact hA.peaked_push hp may o
  | freeStack s => exact hA.peaked_freeStack hp may
  | pop s =>
    rcases List.eq_nil_or_concat (l.values (.stack s)) with hnil | ⟨vals, o, hvals⟩
    · have hlaid := hA.laid_stack may
      rw [hnil] at hlaid
      exact hA.peaked_of_refused hp (EStateM.map_of_error
        (hlaid.pop_nil hA.describes.sound (hA.stack s may)))
    · rw [List.concat_eq_append] at hvals
      obtain ⟨b, hrun, hAb, -⟩ := hA.pop_call may hvals
      refine peaked_of_revalue hp may (EStateM.map_of_ok hrun) (by simp) (by simp) rfl hAb ?_
      rw [hvals, List.length_append]
      exact Nat.le_add_right ..
  | setBottom s i o =>
    rcases Nat.lt_or_ge i (l.values (.stack s)).length with hi | hi
    · obtain ⟨b, hrun, hAb, -⟩ := hA.setBottom_call may hi o
      exact peaked_of_revalue hp may (EStateM.bind_of_ok hrun) (by simp) (by simp) rfl hAb
        (Nat.le_of_eq List.length_set)
    · exact hA.peaked_of_refused hp (EStateM.bind_of_error
        ((hA.laid_stack may).setBottom_error hA.describes.sound (hA.stack s may) hi o))
  | setTop s i o =>
    rcases Nat.lt_or_ge i (l.values (.stack s)).length with hi | hi
    · obtain ⟨b, hrun, hAb, -⟩ := hA.setTop_call may hi o
      exact peaked_of_revalue hp may (EStateM.bind_of_ok hrun) (by simp) (by simp) rfl hAb
        (Nat.le_of_eq List.length_set)
    · exact hA.peaked_of_refused hp (EStateM.bind_of_error
        ((hA.laid_stack may).setTop_error hA.describes.sound (hA.stack s may) hi o))
  | _ => exact hA.peaked_of_kept hp may rfl (by simp)

end Account

/-- Every history can be accounted for along with its peaks. -/
theorem History.Peaks.account (hr : h.Peaks extra limit peak) :
    ∃ l log, Account (.plain extra) h l log ∧ Peaked h l peak := by
  induction hr with
  | start => exact ⟨_, _, account_start rfl limit, fun s hs => absurd hs List.not_mem_nil⟩
  | call _ may ih =>
    obtain ⟨l, log, hA, hp⟩ := ih
    exact hA.peaked hp may

/-- After any calls, a stack that holds `n` values and has held `m` at the most has `1 + m / 20`
segments, distinct and live, the first `n / 20` of them full, and after the next one, which is not
full, only empty ones. Freeing the stack gives back these segments, the last one first, and changes
nothing else; until its row is taken into use again, every call on the handle fails. -/
theorem stack_chain_shape (hr : h.Peaks extra limit peak) (hs : s ∈ h.now.liveStacks) :
    ∃ segs, Chain h.now.arena s (peak s) (h.now.list s).length segs ∧
      ∃ b, s.free h.now.arena = .ok () b ∧ h.now.arena.Released segs.reverse b ∧
        ∀ c, Arena.Idle s.handle b c → ∀ call : Arena.Call, call.Names s.handle →
          ∃ f, call.run c = .error f c := by
  obtain ⟨l, log, hA, hp⟩ := hr.account
  have hlaid := hA.laid_stack hs
  have hd := hA.stack s hs
  obtain ⟨b, hfree, hreleased, hb⟩ := hlaid.free_released hA.describes.sound hd
  have hhead : s.handle ∈ (l.held (.stack s)).reverse := List.mem_reverse.mpr (List.mem_of_head? hd)
  refine ⟨l.held (.stack s), ?_, b, hfree, hreleased, fun c idle call hnames =>
    Arena.run_dead (idle.dead hb (hreleased.dead hhead)).2 hnames⟩
  rw [hA.list_eq hs]
  exact hlaid.chain_shape hA.describes.sound hd (hp s hs).1

/-- A value is pushed on a new stack, which is freed then. -/
theorem stack_chain_shape_push :
    let h := ((History.start 1000).step .newStack).step (.push ⟨1⟩ (.integer 7))
    ∃ peak, h.Peaks False 1000 peak ∧ (⟨1⟩ : Stack) ∈ h.now.liveStacks ∧
      ∃ (segs : List Handle) (b : Arena), segs.length = 1 + peak ⟨1⟩ / segmentSize ∧
        (Stack.mk 1).free h.now.arena = .ok () b ∧ b.freed = h.now.arena.freed ++ segs.reverse := by
  have hpeaks : (((History.start 1000).step .newStack).step (.push ⟨1⟩ (.integer 7))).Peaks
      False 1000 _ := .call (.call .start trivial) History.live_newStack
  have hafter : (⟨1⟩ : Stack) ∈ (((History.start 1000).step .newStack).step
      (.push ⟨1⟩ (.integer 7))).now.liveStacks := by
    rw [History.liveStacks_step (by simp) (by simp)]
    exact History.live_newStack
  obtain ⟨segs, hchain, b, hfree, hreleased, -⟩ := stack_chain_shape hpeaks hafter
  exact ⟨_, hpeaks, hafter, segs, b, hchain.length, hfree, hreleased.freed⟩

end BankedMemory
