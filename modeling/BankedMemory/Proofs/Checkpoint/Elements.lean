import BankedMemory.Proofs.Checkpoint.Snapshot

/-!
# What arrays hold

An element of an array is null, or what was stored there last, or after a restore what was there at
the save. So a property of null and of everything the client stores is one of every element, now and
at each save whose level is open: `Account.holds_step`. What the storage was used for before does
not show, nor what the client has on its stacks.
-/

namespace BankedMemory

variable {P : Object → Prop} {terms : Terms} {h : History} {l : Ledger} {log : Nat → List Record}
  {b : Arena} {call : Arena.Call} {reply : Reply} {f : Fault} {c : Client} {v w : View} {i : Int32}
  {o : Object}

/-- Every element of the arrays is of the kind `P`. -/
def Client.Holds (P : Object → Prop) (c : Client) : Prop :=
  ∀ v ∈ c.arrays, ∀ j < v.size.toNat, ∃ o, c.arena.readSlot v.ent j = .ok o ∧ P o

/-- So it is now and was at each save whose level is open. -/
def History.Holds (P : Object → Prop) (h : History) : Prop :=
  ∀ c ∈ h.now :: h.past, c.Holds P

theorem Client.Holds.mono {Q : Object → Prop} (hc : c.Holds P) (hPQ : ∀ o, P o → Q o) :
    c.Holds Q := fun v hv j hj => by
  obtain ⟨o, hread, ho⟩ := hc v hv j hj
  exact ⟨o, hread, hPQ o ho⟩

theorem History.Holds.mono {Q : Object → Prop} (hh : h.Holds P) (hPQ : ∀ o, P o → Q o) :
    h.Holds Q := fun c hc => (hh c hc).mono hPQ

theorem History.holds_start (limit : Nat) : (History.start limit).Holds P := by
  intro c hc v hv
  rw [List.mem_singleton.mp hc] at hv
  cases hv

namespace Account

theorem shows_of_readSlot (hA : Account terms h l log) (hv : v ∈ h.now.arrays) {j : Nat}
    (hj : j < v.size.toNat) (hread : h.now.arena.readSlot v.ent j = .ok o) :
    h.now.arena.Shows v.ent j o := by
  obtain ⟨p, hp⟩ := hA.shows_now hA.base_le hv hj
  rw [hp.readSlot hA.describes.sound] at hread
  cases hread
  exact hp

theorem holds_of_kept (hA : Account terms h l log) (hold : h.now.Holds P) (hc : c.arena.Sound)
    (harrays : c.arrays = h.now.arrays) (hkept : h.now.ArraysKept c.arena) : c.Holds P := by
  intro v hv j hj
  rw [harrays] at hv
  obtain ⟨o, hread, ho⟩ := hold v hv j hj
  have hshow := hA.shows_of_readSlot hv hj hread
  exact ⟨o, (hkept _ (Client.mem_entities hv (size_ne_zero hj)) j o hshow).readSlot hc, ho⟩

theorem holds_newArray (hA : Account terms h l log) (hnull : P .null) (hold : h.now.Holds P)
    (size : Nat) : (h.step (.newArray size)).now.Holds P := by
  rcases hA.newArray_spec size with ⟨v, b, l', hrun, hAb, -, -, hkept, hshow⟩ | ⟨f, hrun⟩
  · rw [History.step_newArray_of_ok hrun]
    intro w hw j hj
    rcases List.mem_cons.mp hw with rfl | hw
    · exact ⟨.null, (hshow j hj).readSlot hAb.describes.sound, hnull⟩
    · exact hA.holds_of_kept (c := ⟨b, h.now.arrays, h.now.liveStacks⟩) hold hAb.describes.sound rfl
        hkept w hw j hj
  · rw [History.step_newArray_of_error hrun]
    exact hold

theorem holds_arrayPut (hA : Account terms h l log) {array : Object} (harray : h.now.HasArray array)
    (ho : P o) (hold : h.now.Holds P) : (h.step (.arrayPut array i o)).now.Holds P := by
  rcases hA.arrayPut_spec harray i o with
    ⟨b, l', log', hrun, ⟨w, -, -, hstored, -⟩, hAb, -⟩ | ⟨f, b, hrun, -, hkept⟩
  · have hok : (Arena.Call.arrayPut array i o).run h.now.arena = .ok .done b := EStateM.bind_of_ok hrun
    rw [History.step_of_ok hok (by simp) (by simp)]
    intro v hv j hj
    by_cases hhere : v.ent = w.ent ∧ j = w.offset.toNat + i.toUInt32.toNat
    · obtain ⟨hent, rfl⟩ := hhere
      rw [hent]
      exact ⟨o, hstored.here.readSlot hAb.describes.sound, ho⟩
    · obtain ⟨p, hread, hp⟩ := hold v hv j hj
      have hshow := hA.shows_of_readSlot hv hj hread
      exact ⟨p, (hstored.elsewhere _ (Client.mem_entities hv (size_ne_zero hj)) j p
        (fun hent hj => hhere ⟨hent, hj⟩) hshow).readSlot
        hAb.describes.sound, hp⟩
  · have herr : (Arena.Call.arrayPut array i o).run h.now.arena = .error f b :=
      EStateM.bind_of_error hrun
    by_cases hstop : f.stops
    · rwa [History.step_of_stop herr hstop]
    · obtain ⟨hAb, t⟩ := hkept hstop
      rw [History.step_of_error herr hstop]
      exact hA.holds_of_kept hold hAb.describes.sound rfl
        (Client.arraysKept_of_cell fun e _ => t.cell e id)

/-- The arrays of the save have what they had at the save, those made since what they have. -/
theorem holds_restore (hA : Account (.plain False) h l log) (hold : h.Holds P) :
    (h.step .restore).now.Holds P := by
  cases hp : h.past with
  | nil =>
    have herr : Arena.Call.restore.run h.now.arena = .error _ h.now.arena :=
      EStateM.bind_of_error (hA.restore_nothing hp)
    rw [History.step_of_error_same herr]
    exact hold _ List.mem_cons_self
  | cons saved outer =>
    obtain ⟨b, l', hrun, hc⟩ := hA.restore_spec hp (Nat.zero_le _)
    have hb := hc.describes.sound
    obtain ⟨new, hnew⟩ := hA.arrays_suffix (innermost hp)
    have hwithin := (hA.enclosed id).within saved outer (innermost hp)
    rw [History.step_restore_of_ok hrun]
    intro v hv j hj
    simp only at hv
    rw [← hnew, List.mem_append] at hv
    rcases hv with hv | hv
    · obtain ⟨o, hbefore, hafter⟩ := hA.shows_new hc hj hwithin hnew hv
      obtain ⟨p, hread, hp'⟩ := hold _ List.mem_cons_self v (hnew ▸ List.mem_append_left _ hv) j hj
      rw [hbefore.readSlot hA.describes.sound] at hread
      cases hread
      exact ⟨o, hafter.readSlot hb, hp'⟩
    · obtain ⟨o, hbefore, hafter⟩ := hA.shows_saved hc hj hp (Nat.zero_le _) hv
      have hmem : saved ∈ h.now :: h.past := by
        rw [hp]
        exact List.mem_cons_of_mem _ List.mem_cons_self
      obtain ⟨p, hread, hp'⟩ := hold _ hmem v hv j hj
      rw [hbefore] at hread
      cases hread
      exact ⟨o, hafter.readSlot hb, hp'⟩

/-- What is true of null and of all that is stored stays true of all elements. -/
theorem holds_step (hA : Account (.plain False) h l log) (hnull : P .null) (may : call.May False h)
    (hput : ∀ array i o, call = .arrayPut array i o → P o) (hold : h.Holds P) :
    (h.step call).Holds P := by
  intro c hc
  rcases List.mem_cons.mp hc with rfl | hpast
  · obtain ⟨l', log', hkept⟩ := hA.step rfl may
    have hnow := hold _ List.mem_cons_self
    by_cases hrewrites : call.Rewrites
    · cases call with
      | arrayPut array i o => exact hA.holds_arrayPut may (hput array i o rfl) hnow
      | restore => exact hA.holds_restore hold
      | _ => exact hrewrites.elim
    · by_cases hmade : ∃ size, call = .newArray size
      · obtain ⟨size, rfl⟩ := hmade
        exact hA.holds_newArray hnull hnow size
      · exact hA.holds_of_kept hnow hkept.account.describes.sound
          (History.arrays_step fun size heq => hmade ⟨size, heq⟩) (hkept.arrays hrewrites)
  · exact hold c (History.mem_past_step hpast)

/-- An element that is read through a window is one of the array's. -/
theorem holds_arrayGet (hA : Account terms h l log) (hold : h.now.Holds P) {array : Object}
    (harray : h.now.HasArray array) (hget : Arena.arrayGet array i h.now.arena = .ok o) : P o := by
  obtain ⟨v, hv, hwindow⟩ := harray
  obtain ⟨w, rfl, hent, hslots⟩ := hA.window hv hwindow
  by_cases hi : w.InRange i
  · rw [Arena.arrayGet_eq hi, hent] at hget
    obtain ⟨p, hread, hp⟩ := hold v hv _ (hslots i hi)
    rw [hread] at hget
    cases hget
    exact hp
  · rw [Arena.arrayGet_error hi] at hget
    cases hget

end Account

end BankedMemory
