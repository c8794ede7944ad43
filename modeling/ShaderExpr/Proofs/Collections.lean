import Mathlib.Data.List.Forall2

namespace Except

/-- A computation with a result went on behind its first part. -/
theorem bind_eq_ok {ε α β : Type} {x : Except ε α} {f : α → Except ε β} {b : β} :
    (x >>= f) = .ok b ↔ ∃ a, x = .ok a ∧ f a = .ok b := by
  cases x with
  | error e => simp [bind, Except.bind]
  | ok a => simp [bind, Except.bind]

theorem toOption_eq_some {ε α : Type} {x : Except ε α} {a : α} :
    x.toOption = some a ↔ x = .ok a := by
  cases x <;> simp [Except.toOption]

theorem mapM_total {ε α β : Type} {f : α → Except ε β} {P : β → Prop} :
    ∀ {l : List α}, (∀ a ∈ l, ∃ b, f a = .ok b ∧ P b) →
      ∃ bs, l.mapM f = .ok bs ∧ bs.length = l.length ∧ ∀ b ∈ bs, P b
  | [], _ => ⟨[], rfl, rfl, by simp⟩
  | a :: l, h => by
    obtain ⟨b, hb, hPb⟩ := h a List.mem_cons_self
    obtain ⟨bs, hbs, hlength, hPbs⟩ := mapM_total fun c hc => h c (List.mem_cons_of_mem a hc)
    refine ⟨b :: bs, ?_, by simp [hlength], by simpa using ⟨hPb, hPbs⟩⟩
    rw [List.mapM_cons, hb, hbs]
    rfl

theorem mapM_bind_total {ε α β γ : Type} {f : α → Except ε β} {g : List β → Except ε γ}
    {P : γ → Prop} {l : List α} (h : ∀ a ∈ l, ∃ b, f a = .ok b)
    (next : ∀ bs, ∃ c, g bs = .ok c ∧ P c) : ∃ c, l.mapM f >>= g = .ok c ∧ P c := by
  obtain ⟨bs, hbs, -, -⟩ := mapM_total (P := fun _ => True) fun a ha =>
    (h a ha).imp fun _ hb => ⟨hb, trivial⟩
  rw [hbs]
  exact next bs

theorem mapM_fst {ε α β : Type} {f : α × β → Except ε α} :
    ∀ {l : List (α × β)}, (∀ p ∈ l, f p = .ok p.1) → l.mapM f = .ok (l.map (·.1))
  | [], _ => rfl
  | p :: l, h => by
    rw [List.mapM_cons, h p List.mem_cons_self,
      mapM_fst fun q hq => h q (List.mem_cons_of_mem p hq)]
    rfl

/-- Results for a list stand where its elements stand. -/
theorem getElem?_mapM {ε α β : Type} {f : α → Except ε β} :
    ∀ {l : List α} {bs : List β}, l.mapM f = .ok bs → ∀ {i : Nat} {a : α}, l[i]? = some a →
      ∃ b, bs[i]? = some b ∧ f a = .ok b
  | [], _, _, _, _, ha => by simp at ha
  | c :: l, bs, h, i, a, ha => by
    rw [List.mapM_cons] at h
    obtain ⟨b, hb, h⟩ := Except.bind_eq_ok.mp h
    obtain ⟨rest, hrest, h⟩ := Except.bind_eq_ok.mp h
    obtain rfl := Except.ok.inj h
    cases i with
    | zero =>
      obtain rfl := Option.some.inj ha
      exact ⟨b, rfl, hb⟩
    | succ i => exact getElem?_mapM hrest ha

theorem length_mapM {ε α β : Type} {f : α → Except ε β} :
    ∀ {l : List α} {bs : List β}, l.mapM f = .ok bs → bs.length = l.length
  | [], _, h => by
    obtain rfl := Except.ok.inj h
    rfl
  | a :: l, bs, h => by
    rw [List.mapM_cons] at h
    obtain ⟨b, -, h⟩ := Except.bind_eq_ok.mp h
    obtain ⟨rest, hrest, h⟩ := Except.bind_eq_ok.mp h
    obtain rfl := Except.ok.inj h
    rw [List.length_cons, List.length_cons, length_mapM hrest]

end Except

namespace Option

theorem or_eq_some {α : Type} {o o' : Option α} {a : α} (h : o = some a) : o.or o' = some a := by
  rw [h]
  rfl

theorem mapM_total {α β : Type} {f : α → Option β} {P : α → β → Prop} :
    ∀ {l : List α}, (∀ a ∈ l, ∃ b, f a = some b ∧ P a b) →
      ∃ bs, l.mapM f = some bs ∧ List.Forall₂ P l bs
  | [], _ => ⟨[], rfl, .nil⟩
  | a :: l, h => by
    obtain ⟨b, hb, hPb⟩ := h a List.mem_cons_self
    obtain ⟨bs, hbs, hPbs⟩ := mapM_total fun c hc => h c (List.mem_cons_of_mem a hc)
    refine ⟨b :: bs, ?_, .cons hPb hPbs⟩
    rw [List.mapM_cons, hb, hbs]
    rfl

theorem mapM_eq_map {α β : Type} {p : α → Option β} {f : α → β} :
    ∀ {l : List α}, (∀ a ∈ l, p a = some (f a)) → l.mapM p = some (l.map f)
  | [], _ => rfl
  | a :: l, h => by
    rw [List.mapM_cons, h a List.mem_cons_self,
      mapM_eq_map fun b hb => h b (List.mem_cons_of_mem a hb)]
    rfl

theorem mapM_mono {α β : Type} {f g : α → Option β} (h : ∀ a b, f a = some b → g a = some b) :
    ∀ {l : List α} {bs : List β}, l.mapM f = some bs → l.mapM g = some bs
  | [], _, hl => hl
  | a :: l, bs, hl => by
    rw [List.mapM_cons] at hl
    obtain ⟨b, hb, hl⟩ := Option.bind_eq_some_iff.mp hl
    obtain ⟨rest, hrest, hl⟩ := Option.bind_eq_some_iff.mp hl
    rw [List.mapM_cons, h a b hb, Option.bind_eq_bind, Option.bind_some, mapM_mono h hrest]
    exact hl

/-- Results for a list stand where its elements stand. -/
theorem getElem?_mapM {α β : Type} {f : α → Option β} :
    ∀ {l : List α} {bs : List β}, l.mapM f = some bs → ∀ {i : Nat} {a : α}, l[i]? = some a →
      ∃ b, bs[i]? = some b ∧ f a = some b
  | [], _, _, _, _, ha => by simp at ha
  | c :: l, bs, h, i, a, ha => by
    rw [List.mapM_cons] at h
    obtain ⟨b, hb, h⟩ := Option.bind_eq_some_iff.mp h
    obtain ⟨rest, hrest, h⟩ := Option.bind_eq_some_iff.mp h
    obtain rfl := Option.some.inj h
    cases i with
    | zero =>
      obtain rfl := Option.some.inj ha
      exact ⟨b, rfl, hb⟩
    | succ i => exact getElem?_mapM hrest ha

theorem mapM_eq_of_forall₂ {α β γ : Type} {R : α → β → Prop} {f : β → Option γ} {g : α → γ}
    {as : List α} {bs : List β} (h : List.Forall₂ R as bs)
    (hf : ∀ a b, R a b → f b = some (g a)) : bs.mapM f = some (as.map g) := by
  induction h with
  | nil => rfl
  | @cons a b as bs hab _ ih =>
    rw [List.mapM_cons, hf a b hab, ih]
    rfl

end Option

namespace List

theorem exists_of_forall₂ {α β : Type} {R : α → β → Prop} {as : List α} {bs : List β}
    (h : List.Forall₂ R as bs) : ∀ b ∈ bs, ∃ a ∈ as, R a b := by
  induction h with
  | nil => simp
  | @cons a b as bs hab _ ih =>
    intro c hc
    rcases List.mem_cons.mp hc with rfl | hc
    · exact ⟨a, List.mem_cons_self, hab⟩
    · obtain ⟨d, hd, hdc⟩ := ih c hc
      exact ⟨d, List.mem_cons_of_mem a hd, hdc⟩

theorem forall₂_replicate {α β : Type} {R : α → β → Prop} {l : List α} {b : β}
    (h : ∀ a ∈ l, R a b) : List.Forall₂ R l (List.replicate l.length b) := by
  induction l with
  | nil => exact .nil
  | cons a l ih =>
    exact .cons (h a List.mem_cons_self) (ih fun c hc => h c (List.mem_cons_of_mem a hc))

/-- Values of one type are as many as that type is repeated. -/
theorem forall₂_replicate_iff {α β : Type} {R : α → β → Prop} {l : List α} {b : β} {n : Nat} :
    List.Forall₂ R l (List.replicate n b) ↔ l.length = n ∧ ∀ a ∈ l, R a b := by
  constructor
  · intro h
    refine ⟨by simpa using h.length_eq, fun a ha => ?_⟩
    obtain ⟨c, hc, hac⟩ := exists_of_forall₂ h.flip a ha
    exact List.eq_of_mem_replicate hc ▸ hac
  · rintro ⟨rfl, h⟩
    exact forall₂_replicate h

theorem forall₂_mem_right {α β : Type} {R : α → β → Prop} {as : List α} {bs : List β}
    (h : List.Forall₂ R as bs) : List.Forall₂ (fun a c => c ∈ bs ∧ R a c) as bs :=
  List.Forall₂.flip ((List.forall₂_and_left bs as).mpr ⟨fun _ hc => hc, h.flip⟩)

theorem eq_map_of_forall₂ {α β : Type} {R : α → β → Prop} {g : α → β} {as : List α} {bs : List β}
    (h : List.Forall₂ R as bs) (hg : ∀ a c, R a c → g a = c) : bs = as.map g := by
  induction h with
  | nil => rfl
  | cons hac _ ih => rw [List.map_cons, hg _ _ hac, ← ih]

theorem lookup_cons_eq {α β : Type} [BEq α] [LawfulBEq α] [DecidableEq α] {a a' : α} {x : β}
    {l : List (α × β)} : ((a, x) :: l).lookup a' = if a' = a then some x else l.lookup a' := by
  rw [List.lookup_cons]
  by_cases h : a' = a
  · simp [h]
  · rw [beq_eq_false_iff_ne.mpr h, if_neg h]

/-- Elements that are chosen by their indexes, all of which are found. -/
theorem eq_map_getD_of_mapM {current : List Nat} : ∀ {indexes composed : List Nat},
    indexes.mapM (current[·]?) = some composed →
      composed = indexes.map (current.getD · 0) ∧ ∀ i ∈ composed, i ∈ current
  | [], _, h => by
    obtain rfl := Option.some.inj h
    exact ⟨rfl, by simp⟩
  | i :: indexes, _, h => by
    rw [List.mapM_cons] at h
    obtain ⟨j, hj, h⟩ := Option.bind_eq_some_iff.mp h
    obtain ⟨rest, hrest, h⟩ := Option.bind_eq_some_iff.mp h
    obtain rfl := Option.some.inj h
    obtain ⟨rfl, hmem⟩ := eq_map_getD_of_mapM hrest
    refine ⟨by rw [List.map_cons, List.getD_eq_getElem?_getD, hj, Option.getD_some], ?_⟩
    exact List.forall_mem_cons.mpr ⟨List.mem_of_getElem? hj, hmem⟩

/-- What is in excess is not paired. -/
theorem take_length_zip {α β : Type} : ∀ (as : List α) (bs : List β),
    (as.take bs.length).zip bs = as.zip bs
  | _, [] => by simp
  | [], _ :: _ => rfl
  | a :: as, b :: bs => congrArg ((a, b) :: ·) (take_length_zip as bs)

theorem of_mem_takeWhile {α : Type} {p : α → Bool} {l : List α} : ∀ a ∈ l.takeWhile p, p a :=
  List.all_eq_true.mp List.all_takeWhile

/-- A list is what it starts with and what is behind. -/
theorem split_takeWhile {α : Type} (p : α → Bool) (l : List α) :
    l = l.takeWhile p ++ l.drop (l.takeWhile p).length := by
  have hsplit := List.takeWhile_append_dropWhile (p := p) (l := l)
  have hdrop := congrArg (List.drop (l.takeWhile p).length) hsplit
  rw [List.drop_left] at hdrop
  rw [← hdrop, hsplit]

/-- What starts a list and has a property belongs to the run of it. -/
theorem length_le_takeWhile {α : Type} {p : α → Bool} {run rest : List α} (all : ∀ a ∈ run, p a) :
    run.length ≤ ((run ++ rest).takeWhile p).length := by
  rw [List.takeWhile_append_of_pos all, List.length_append]
  exact Nat.le_add_right _ _

theorem length_eraseDups_le : ∀ l : List Nat, l.eraseDups.length ≤ l.length
  | [] => Nat.le_refl _
  | a :: l => by
    rw [List.eraseDups_cons, List.length_cons, List.length_cons]
    have hfilter := List.length_filter_le (fun b => !b == a) l
    exact Nat.succ_le_succ (Nat.le_trans (length_eraseDups_le _) hfilter)
termination_by l => l.length
decreasing_by exact Nat.lt_succ_of_le (List.length_filter_le _ _)

theorem nodup_of_length_eraseDups : ∀ {l : List Nat}, l.eraseDups.length = l.length → l.Nodup
  | [], _ => .nil
  | a :: l, h => by
    rw [List.eraseDups_cons, List.length_cons, List.length_cons, Nat.add_right_cancel_iff] at h
    have hall : (l.filter fun b => !b == a).length = l.length :=
      Nat.le_antisymm (List.length_filter_le _ _) (h ▸ length_eraseDups_le _)
    have hne := List.length_filter_eq_length_iff.mp hall
    rw [List.filter_eq_self.mpr hne] at h
    refine List.nodup_cons.mpr ⟨fun hmem => ?_, nodup_of_length_eraseDups h⟩
    simpa using hne a hmem

theorem exists_of_two_le_length {α : Type} : ∀ {l : List α}, 2 ≤ l.length →
    ∃ a b rest, l = a :: b :: rest
  | a :: b :: rest, _ => ⟨a, b, rest, rfl⟩

theorem drop_take_map_range {α : Type} {g : Nat → α} {count start length : Nat}
    (h : start + length ≤ count) :
    (((List.range count).map g).drop start).take length =
      (List.range length).map fun i => g (start + i) := by
  refine List.ext_getElem (by simp; omega) fun i hi hi' => ?_
  simp

/-- Elements of lists of one length, put one behind the other. -/
theorem getElem?_flatten_of_length {α : Type} {n : Nat} :
    ∀ {ls : List (List α)} {l : List α} {c r : Nat}, (∀ l ∈ ls, l.length = n) → ls[c]? = some l →
      r < n → ls.flatten[c * n + r]? = l[r]?
  | k :: ls, l, 0, r, hlength, hl, hr => by
    obtain rfl := Option.some.inj hl
    rw [List.flatten_cons, Nat.zero_mul, Nat.zero_add,
      List.getElem?_append_left (by rw [hlength _ List.mem_cons_self]; exact hr)]
  | k :: ls, l, c + 1, r, hlength, hl, hr => by
    have hk : k.length = n := hlength k List.mem_cons_self
    rw [List.flatten_cons, List.getElem?_append_right (by rw [hk, Nat.add_one_mul]; omega), hk,
      Nat.add_one_mul, show c * n + n + r - n = c * n + r by omega]
    exact getElem?_flatten_of_length (fun m hm => hlength m (List.mem_cons_of_mem k hm)) hl hr

/-- Blocks of one size are found at the multiples of it. -/
theorem take_drop_flatMap {α β : Type} {f : α → List β} {size : Nat} :
    ∀ {l : List α} {i : Nat} {a : α}, (∀ a ∈ l, (f a).length = size) → l[i]? = some a →
      ∀ rest, ((l.flatMap f ++ rest).drop (i * size)).take size = f a
  | b :: l, 0, a, hsize, ha, rest => by
    obtain rfl := Option.some.inj ha
    rw [Nat.zero_mul, List.drop_zero, List.flatMap_cons, List.append_assoc,
      List.take_left' (hsize _ List.mem_cons_self)]
  | b :: l, i + 1, a, hsize, ha, rest => by
    rw [List.flatMap_cons, List.append_assoc, Nat.add_one_mul, Nat.add_comm, ← List.drop_drop,
      List.drop_left' (hsize b List.mem_cons_self)]
    exact take_drop_flatMap (fun c hc => hsize c (List.mem_cons_of_mem b hc)) ha rest

/-- A part of blocks of one size. -/
theorem take_drop_flatMap_blocks {α β : Type} {f : α → List β} {size : Nat} :
    ∀ {l : List α}, (∀ a ∈ l, (f a).length = size) → ∀ i n,
      ((l.flatMap f).drop (i * size)).take (n * size) = ((l.drop i).take n).flatMap f
  | [], _, i, n => by simp
  | a :: l, hsize, i + 1, n => by
    rw [List.flatMap_cons, Nat.add_one_mul, Nat.add_comm, ← List.drop_drop,
      List.drop_left' (hsize a List.mem_cons_self), List.drop_succ_cons]
    exact take_drop_flatMap_blocks (fun b hb => hsize b (List.mem_cons_of_mem a hb)) i n
  | a :: l, hsize, 0, 0 => by simp
  | a :: l, hsize, 0, n + 1 => by
    have ha := hsize a List.mem_cons_self
    have htail := take_drop_flatMap_blocks (fun b hb => hsize b (List.mem_cons_of_mem a hb)) 0 n
    rw [Nat.zero_mul, List.drop_zero, List.drop_zero] at htail ⊢
    rw [List.flatMap_cons, List.take_succ_cons, List.flatMap_cons, Nat.add_one_mul, Nat.add_comm,
      ← ha, List.take_length_add_append, ha, htail]

/-- A piece of a piece. -/
theorem take_drop_piece {α : Type} {size count i j : Nat} (hj : j < count) (data : List α) :
    ((((data.drop (i * (size * count))).take (size * count)).drop (j * size)).take size) =
      (data.drop ((i * count + j) * size)).take size := by
  have hle : (j + 1) * size ≤ size * count := by
    rw [Nat.mul_comm size]
    exact Nat.mul_le_mul_right size hj
  rw [Nat.add_one_mul] at hle
  rw [List.drop_take, List.take_take, List.drop_drop, Nat.min_eq_left (by omega), Nat.add_mul,
    Nat.mul_assoc i count, Nat.mul_comm count]

theorem length_take_drop {α : Type} {l : List α} {columns rows column : Nat}
    (length : l.length = columns * rows) (h : column < columns) :
    ((l.drop (column * rows)).take rows).length = rows := by
  have hle : (column + 1) * rows ≤ columns * rows := Nat.mul_le_mul_right rows h
  rw [Nat.add_mul, Nat.one_mul] at hle
  rw [List.length_take, List.length_drop, length]
  omega

/-- What stands at a place, in front of it and behind it, where all blocks have one size. -/
theorem around_block {α : Type} {front block behind : List α} {size i : Nat}
    (hfront : front.length = i * size) (hblock : block.length = size) :
    (front ++ block ++ behind).take (i * size) = front ∧
      ((front ++ block ++ behind).drop (i * size)).take size = block ∧
      (front ++ block ++ behind).drop ((i + 1) * size) = behind := by
  refine ⟨?_, ?_, ?_⟩
  · rw [List.append_assoc, List.take_left' hfront]
  · rw [List.append_assoc, List.drop_left' hfront, List.take_left' hblock]
  · rw [List.drop_left' (by rw [List.length_append, hfront, hblock, Nat.add_one_mul])]

/-- A block that takes the place of another of the same size leaves the other blocks as they
    are. -/
theorem take_drop_replace {α : Type} {l block : List α} {size i j : Nat}
    (hblock : block.length = size) (hi : (i + 1) * size ≤ l.length)
    (hne : j ≠ i) :
    ((l.take (i * size) ++ block ++ l.drop ((i + 1) * size)).drop (j * size)).take size =
      (l.drop (j * size)).take size := by
  rw [Nat.add_one_mul] at hi ⊢
  have hfront : (l.take (i * size)).length = i * size := List.length_take_of_le (by omega)
  refine List.ext_getElem? fun k => ?_
  by_cases hk : k < size
  · rw [List.getElem?_take_of_lt hk, List.getElem?_take_of_lt hk, List.getElem?_drop,
      List.getElem?_drop]
    rcases Nat.lt_or_gt_of_ne hne with h | h
    · have hle : (j + 1) * size ≤ i * size := Nat.mul_le_mul_right size h
      rw [Nat.add_one_mul] at hle
      rw [List.append_assoc, List.getElem?_append_left (by omega),
        List.getElem?_take_of_lt (by omega)]
    · have hle : (i + 1) * size ≤ j * size := Nat.mul_le_mul_right size h
      rw [Nat.add_one_mul] at hle
      have hlength : (l.take (i * size) ++ block).length = i * size + size := by
        rw [List.length_append, hfront, hblock]
      rw [List.getElem?_append_right (by omega), hlength, List.getElem?_drop]
      congr 1
      omega
  · rw [List.getElem?_take_eq_none (by omega), List.getElem?_take_eq_none (by omega)]

/-- A list is split at its first element or behind it. -/
theorem exists_split_cons {α : Type} {x : α} {xs : List α} {p : List α → α → List α → Prop} :
    (∃ before y behind, x :: xs = before ++ y :: behind ∧ p before y behind) ↔
      p [] x xs ∨ ∃ before y behind, xs = before ++ y :: behind ∧ p (x :: before) y behind := by
  constructor
  · rintro ⟨_ | ⟨first, before⟩, y, behind, hsplit, h⟩
    · obtain ⟨rfl, rfl⟩ := List.cons.inj hsplit
      exact .inl h
    · obtain ⟨rfl, rfl⟩ := List.cons.inj hsplit
      exact .inr ⟨before, y, behind, rfl, h⟩
  · rintro (h | ⟨before, y, behind, rfl, h⟩)
    · exact ⟨[], x, xs, rfl, h⟩
    · exact ⟨x :: before, y, behind, rfl, h⟩

end List
