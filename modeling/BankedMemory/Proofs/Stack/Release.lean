import BankedMemory.Proofs.Arena.Calls
import BankedMemory.Proofs.Stack.Effects

/-!
# Segments given back

Giving a stack back frees the rows of its segments in the order of the list and changes nothing
else. A row that is free stays so until a step takes it into use, and until then every call that
names its handle fails and changes nothing.
-/

namespace BankedMemory.Arena

/-- The rows `given` have been freed, in this order, and nothing else has happened. -/
structure Released (a : Arena) (given : List Handle) (b : Arena) : Prop where
  freed : b.freed = a.freed ++ given
  row : ∀ k ∈ given, b.table[k.toNat]? = a.table[k.toNat]?.map fun e => { e with kind := .free }
  other : ∀ i : Nat, (∀ k ∈ given, k.toNat ≠ i) → b.table[i]? = a.table[i]?
  rest : b = { a with table := b.table, freed := b.freed }

/-- The step takes row `h` into use. -/
def Takes (h : Handle) (a b : Arena) : Prop :=
  (∃ content, b = a.reuse h content) ∨
    ∃ size content, b = a.append size content ∧ h.toNat = a.table.size

/-- Any steps none of which takes row `h` into use. -/
def Idle (h : Handle) : Arena → Arena → Prop :=
  Relation.ReflTransGen fun a b => Step anyTrade a b ∧ ¬Takes h a b

/-- The call is about the entity `h`, or about the stack or the array that it is of. -/
def Call.Names (h : Handle) : Call → Prop
  | .entry k | .free k | .setMark k _ | .read k _ _ | .write k _ _ | .readSlot k _
  | .writeSlot k _ _ | .preserved k | .preserve _ k => k = h
  | .copyContents j k | .exchange j k => j = h ∨ k = h
  | .arrayPut o _ _ | .arrayGet o _ => ∃ v, o = .composite .array v ∧ v.ent = h
  | .push s _ | .pop s | .count s | .isEmpty s | .bottom s _ | .top s _ | .setBottom s _ _
  | .setTop s _ _ | .freeStack s | .listing s => s.handle = h
  | .usage | .allocate _ _ | .allocateCollectable _ _ | .lowerTopLevels _ | .newArray _ | .save
  | .restore | .depth | .newStack => False

variable {T : Trading} {a b c : Arena} {h k : Handle} {e : Entry} {given segs : List Handle}
  {vals : List Object} {s : Stack} {call : Call}

/-! ## What is given back -/

theorem released_of_free (hrun : free h a = .ok () b) : Released a [h] b := by
  unfold free at hrun
  split at hrun
  · cases hrun
  · split at hrun
    · cases hrun
    · cases hrun
      refine ⟨rfl, fun k hk => ?_, fun i hi => ?_, rfl⟩
      · rw [List.mem_singleton.mp hk, Array.getElem?_modify, if_pos rfl]
      · rw [Array.getElem?_modify, if_neg (hi h (List.mem_singleton_self h))]

theorem released_of_forM (hnodup : given.Nodup) (hrun : given.forM free a = .ok () b) :
    Released a given b := by
  induction given generalizing a with
  | nil =>
    cases hrun
    exact ⟨(List.append_nil _).symm, fun _ hk => absurd hk List.not_mem_nil, fun _ _ => rfl, rfl⟩
  | cons h given ih =>
    obtain ⟨hh, hnodup⟩ := List.nodup_cons.mp hnodup
    obtain ⟨_, c, hfirst, hrest⟩ := EStateM.exists_of_bind_ok hrun
    have first := released_of_free hfirst
    have rest := ih hnodup hrest
    refine ⟨?_, fun k hk => ?_, fun i hi => ?_, ?_⟩
    · rw [rest.freed, first.freed, List.append_assoc, List.singleton_append]
    · rcases List.mem_cons.mp hk with rfl | hk
      · have hne : ∀ j ∈ given, j ≠ k := fun j hj heq => hh (heq ▸ hj)
        rw [rest.other _ fun j hj => toNat_ne (hne j hj),
          first.row _ (List.mem_singleton_self _)]
      · have hne : h ≠ k := fun heq => hh (heq ▸ hk)
        rw [rest.row k hk, first.other _ fun j hj => toNat_ne (List.mem_singleton.mp hj ▸ hne)]
    · rw [rest.other i fun k hk => hi k (List.mem_cons_of_mem _ hk),
        first.other i fun k hk => hi k (List.mem_singleton.mp hk ▸ List.mem_cons_self)]
    · rw [rest.rest, first.rest]

theorem Laid.free_released (hs : a.Sound) (hl : a.Laid segs vals)
    (hd : segs.head? = some s.handle) :
    ∃ b, s.free a = .ok () b ∧ Released a segs.reverse b ∧ b.Sound := by
  obtain ⟨b, hrun, hr, -⟩ := hl.free_spec hs hd
  refine ⟨b, hrun, released_of_forM (List.nodup_reverse.mpr hl.nodup) ?_, hr.sound⟩
  unfold Stack.free at hrun
  rwa [ArenaM.reading_bind (hl.chain_eq hs hd)] at hrun

/-! ## Rows that are not in use -/

theorem dead_iff : ¬a.Live h ↔ ∀ e, a.table[h.toNat]? = some e → e.kind = .free := by
  constructor
  · intro hdead e he
    exact Decidable.byContradiction fun hk => hdead ⟨e, entry_eq_ok_iff.mpr ⟨he, hk⟩⟩
  · rintro hfree ⟨e, he⟩
    obtain ⟨hrow, hk⟩ := entry_eq_ok_iff.mp he
    exact hk (hfree e hrow)

/-- A row that keeps its kind, or becomes free, does not come alive. -/
theorem dead_of_row (hdead : ¬a.Live h) (hrow : ∀ f, b.table[h.toNat]? = some f →
    f.kind = .free ∨ ∃ e, a.table[h.toNat]? = some e ∧ f.kind = e.kind) : ¬b.Live h := by
  rw [dead_iff] at hdead ⊢
  intro f hf
  rcases hrow f hf with hfree | ⟨e, he, hkind⟩
  · exact hfree
  · rw [hkind, hdead e he]

theorem Released.dead (hr : Released a given b) (hk : k ∈ given) : ¬b.Live k := by
  rw [dead_iff, hr.row k hk]
  intro f hf
  obtain ⟨e, -, rfl⟩ := Option.map_eq_some_iff.mp hf
  rfl

theorem exists_row_of_modify {rows : Array Entry} {g : Entry → Entry} {n i : Nat} {f : Entry}
    (hf : (rows.modify n g)[i]? = some f) :
    ∃ e, rows[i]? = some e ∧ (f = e ∨ i = n ∧ f = g e) := by
  rw [Array.getElem?_modify] at hf
  split at hf
  · next heq =>
    obtain ⟨e, he, rfl⟩ := Option.map_eq_some_iff.mp hf
    exact ⟨e, he, .inr ⟨heq.symm, rfl⟩⟩
  · exact ⟨f, hf, .inl rfl⟩

/-- A row comes into use only by being allocated. -/
theorem Step.dead (step : Step T a b) (hdead : ¬a.Live h) (hnot : ¬Takes h a b) :
    ¬b.Live h := by
  refine dead_of_row hdead fun f hf => ?_
  cases step with
  | @reuse k r size content first row free room =>
    rw [reuse_eq row] at hf
    obtain ⟨e, he, rfl | ⟨heq, -⟩⟩ := exists_row_of_modify hf
    · exact .inr ⟨f, he, rfl⟩
    · obtain rfl := UInt32.toNat_inj.mp heq
      exact absurd (.inl ⟨content, rfl⟩) hnot
  | @append size content none fits possible room =>
    rw [append_eq] at hf
    simp only at hf
    rw [Array.getElem?_push] at hf
    split at hf
    · next heq => exact absurd (.inr ⟨size, content, rfl, heq⟩) hnot
    · exact .inr ⟨f, hf, rfl⟩
  | free live owned =>
    obtain ⟨e, he, rfl | ⟨-, rfl⟩⟩ := exists_row_of_modify hf
    · exact .inr ⟨f, he, rfl⟩
    · exact .inl rfl
  | setMark live mark =>
    obtain ⟨e, he, rfl | ⟨-, rfl⟩⟩ := exists_row_of_modify hf
    · exact .inr ⟨f, he, rfl⟩
    · exact .inr ⟨e, he, rfl⟩
  | lowerTopLevels level =>
    simp only at hf
    rw [Array.getElem?_map] at hf
    obtain ⟨e, he, rfl⟩ := Option.map_eq_some_iff.mp hf
    exact .inr ⟨e, he, (lowerRow_place level e).2.2⟩
  | exchange live live' allowed =>
    obtain ⟨g, hg, hfg⟩ := exists_row_of_modify hf
    obtain ⟨e, he, hge⟩ := exists_row_of_modify hg
    refine .inr ⟨e, he, ?_⟩
    rcases hfg with rfl | ⟨-, rfl⟩ <;> rcases hge with rfl | ⟨-, rfl⟩ <;> rfl
  | overwrite live after before => exact .inr ⟨f, hf, rfl⟩
  | count => exact .inr ⟨f, hf, rfl⟩
  | openSaves s => exact .inr ⟨f, hf, rfl⟩

theorem Idle.dead (idle : Idle h a b) (hs : a.Sound) (hdead : ¬a.Live h) :
    b.Sound ∧ ¬b.Live h := by
  induction idle with
  | refl => exact ⟨hs, hdead⟩
  | tail _ step ih => exact ⟨step.1.sound ih.1, step.1.dead ih.2 step.2⟩

/-! ## Calls on a handle that is not in use -/

section Dead

variable (hdead : ¬a.Live h)

include hdead

theorem entry_dead : a.entry h = .error .noSuchEntity := entry_of_dead (cell_eq_none_iff.mpr hdead)

theorem span_dead (i w : Nat) : a.span h i w = .error .noSuchEntity :=
  bind_eq_of_error (entry_dead hdead)

theorem read_dead (i w : Nat) : a.read h i w = .error .noSuchEntity :=
  read_of_dead (cell_eq_none_iff.mpr hdead) i w

theorem readSlot_dead (i : Nat) : a.readSlot h i = .error .noSuchEntity :=
  bind_eq_of_error (read_dead hdead i _)

theorem header_dead : a.header h = .error .noSuchEntity := bind_eq_of_error (read_dead hdead 0 _)

theorem count_dead (hd : s.handle = h) : s.count a = .error .noSuchEntity := by
  subst hd
  exact bind_eq_of_error (bind_eq_of_error (header_dead hdead))

theorem place_dead (hd : s.handle = h) (i : Nat) (op : String) :
    s.place a i op = .error .noSuchEntity :=
  bind_eq_of_error (count_dead hdead hd)

theorem indexFromTop_dead (hd : s.handle = h) (i : Nat) (op : String) :
    s.indexFromTop a i op = .error .noSuchEntity :=
  bind_eq_of_error (count_dead hdead hd)

theorem copyContents_dead {j : Handle} (hnames : j = h ∨ k = h) :
    ∃ f, copyContents j k a = .error f a := by
  unfold copyContents
  rcases hnames with rfl | rfl
  · rw [entry_dead hdead]
    exact ⟨_, rfl⟩
  · rw [entry_dead hdead]
    cases a.entry j <;> exact ⟨_, rfl⟩

theorem preserve_dead (content : Content) : ∃ f, preserve content h a = .error f a := by
  unfold preserve
  cases hdepth : a.depth with
  | error f => exact ⟨f, EStateM.bind_of_error (ArenaM.reading_of_error hdepth)⟩
  | ok level =>
    rw [ArenaM.reading_bind hdepth]
    exact ⟨_, EStateM.bind_of_error (ArenaM.reading_of_error (entry_dead hdead))⟩

/-- An index out of range is refused before the entity is looked for. -/
theorem arrayPut_dead {v : View} (hv : v.ent = h) (i : Int32) (o : Object) :
    ∃ f, arrayPut (.composite .array v) i o a = .error f a := by
  subst hv
  unfold arrayPut
  rw [ArenaM.reading_bind (f := fun _ => Object.array? (.composite .array v) "array_put") rfl]
  cases hslot : v.slot i "array_put" with
  | error f => exact ⟨f, EStateM.bind_of_error (ArenaM.reading_of_error rfl)⟩
  | ok slot =>
    rw [ArenaM.reading_bind (f := fun _ => .ok slot) rfl]
    have hpreserved : a.preserved v.ent = .error .noSuchEntity :=
      bind_eq_of_error (entry_dead hdead)
    exact ⟨_, EStateM.bind_of_error (ArenaM.reading_of_error hpreserved)⟩

theorem arrayGet_dead {v : View} (hv : v.ent = h) (i : Int32) :
    ∃ f, arrayGet (.composite .array v) i a = .error f := by
  subst hv
  unfold arrayGet
  rw [bind_eq_of_ok (m := Object.array? (.composite .array v) "array_get") rfl]
  cases hslot : v.slot i "array_get" with
  | error f => exact ⟨f, rfl⟩
  | ok slot =>
    exact ⟨_, readSlot_dead hdead slot⟩

theorem free_dead : free h a = .error .noSuchEntity a := by
  unfold free
  rw [entry_dead hdead]

theorem setMark_dead (mark : Mark) : setMark h mark a = .error .noSuchEntity a := by
  unfold setMark
  rw [entry_dead hdead]

theorem write_dead (i : Nat) (src : List UInt8) : write h i src a = .error .noSuchEntity a := by
  unfold write
  rw [span_dead hdead]

/-- No call does anything with a handle that is not in use. -/
theorem run_dead (hnames : call.Names h) : ∃ f, call.run a = .error f a := by
  -- a call that looks, and one that looks first
  have hlook : ∀ {α : Type} {g : Arena → Except Fault α} {put : α → Reply} {f : Fault},
      g a = .error f → (ArenaM.reading fun a => do return put (← g a)) a = .error f a :=
    fun hf => ArenaM.reading_of_error (bind_eq_of_error hf)
  have hfirst : ∀ {α β : Type} {g : Arena → Except Fault α} {rest : α → ArenaM β} {f : Fault},
      g a = .error f → (ArenaM.reading g >>= rest) a = .error f a :=
    fun hf => EStateM.bind_of_error (ArenaM.reading_of_error hf)
  cases call with
  | entry k => cases hnames; exact ⟨_, hlook (g := fun a => a.entry h) (entry_dead hdead)⟩
  | free k => cases hnames; exact ⟨_, EStateM.bind_of_error (free_dead hdead)⟩
  | setMark k mark => cases hnames; exact ⟨_, EStateM.bind_of_error (setMark_dead hdead mark)⟩
  | read k i w => cases hnames; exact ⟨_, hlook (g := fun a => a.read h i w) (read_dead hdead i w)⟩
  | write k i src => cases hnames; exact ⟨_, EStateM.bind_of_error (write_dead hdead i src)⟩
  | readSlot k i =>
    cases hnames
    exact ⟨_, hlook (g := fun a => a.readSlot h i) (readSlot_dead hdead i)⟩
  | writeSlot k i o => cases hnames; exact ⟨_, EStateM.bind_of_error (write_dead hdead i o.encode)⟩
  | preserved k =>
    cases hnames
    exact ⟨_, hlook (g := fun a => a.preserved h) (bind_eq_of_error (entry_dead hdead))⟩
  | preserve content k =>
    cases hnames
    obtain ⟨f, hf⟩ := preserve_dead hdead content
    exact ⟨f, EStateM.bind_of_error hf⟩
  | copyContents j k =>
    obtain ⟨f, hf⟩ := copyContents_dead hdead hnames
    exact ⟨f, EStateM.bind_of_error hf⟩
  | exchange j k =>
    have hgone : ¬a.Live j ∨ ¬a.Live k := by
      rcases hnames with rfl | rfl
      · exact .inl hdead
      · exact .inr hdead
    obtain ⟨f, hf⟩ := exchange_error hgone
    exact ⟨f, EStateM.bind_of_error hf⟩
  | arrayPut o i p =>
    obtain ⟨v, rfl, hv⟩ := hnames
    obtain ⟨f, hf⟩ := arrayPut_dead hdead hv i p
    exact ⟨f, EStateM.bind_of_error hf⟩
  | arrayGet o i =>
    obtain ⟨v, rfl, hv⟩ := hnames
    obtain ⟨f, hf⟩ := arrayGet_dead hdead hv i
    exact ⟨f, hlook (g := fun a => arrayGet (.composite .array v) i a) hf⟩
  | push s o =>
    cases hnames
    exact ⟨_, EStateM.bind_of_error (hfirst (bind_eq_of_error (header_dead hdead)))⟩
  | pop s =>
    cases hnames
    exact ⟨_, EStateM.map_of_error
      (hfirst (bind_eq_of_error (bind_eq_of_error (header_dead hdead))))⟩
  | count s => exact ⟨_, hlook (count_dead hdead hnames)⟩
  | isEmpty s => exact ⟨_, hlook (bind_eq_of_error (count_dead hdead hnames))⟩
  | bottom s i =>
    exact ⟨_, hlook (g := fun a => s.bottom i a) (bind_eq_of_error (place_dead hdead hnames i _))⟩
  | top s i =>
    exact ⟨_, hlook (g := fun a => s.top i a)
      (bind_eq_of_error (indexFromTop_dead hdead hnames i _))⟩
  | setBottom s i o => exact ⟨_, EStateM.bind_of_error (hfirst (place_dead hdead hnames i _))⟩
  | setTop s i o => exact ⟨_, EStateM.bind_of_error (hfirst (indexFromTop_dead hdead hnames i _))⟩
  | freeStack s =>
    cases hnames
    exact ⟨_, EStateM.bind_of_error (hfirst (bind_eq_of_error (header_dead hdead)))⟩
  | listing s =>
    cases hnames
    exact ⟨_, hlook (bind_eq_of_error (bind_eq_of_error (header_dead hdead)))⟩
  | usage | allocate | allocateCollectable | lowerTopLevels | newArray | save | restore | depth
  | newStack => exact hnames.elim

end Dead

end BankedMemory.Arena
