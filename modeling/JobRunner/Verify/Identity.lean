import JobRunner.Identity
import JobRunner.Lib.Marks
import JobRunner.Verify.Orphans

/-!
# Who is told apart

The owner checks of the coordinator compare user ids, and the id of a user is the subject of a
certificate as it is displayed. A value that contains what separates two attributes there displays
like two attributes, so two certificates of different subjects may stand for one user. `pieces` cuts
the values of a name at these places, and two certificates are told apart exactly if their names
still differ in pieces (`separated_iff`).
-/

namespace JobRunner

open Lts

/-! ## Marks in a displayed name -/

/-- What stands in front of an attribute: that it is the first one of its RDN, or another one. -/
inductive Sep where
  | rdn
  | attr
  deriving DecidableEq

def Sep.text : Sep → List Char
  | .rdn => [',', ' ']
  | .attr => [' ', '+', ' ']

def Sep.read : List Char → Option (Sep × List Char)
  | ',' :: ' ' :: s => some (.rdn, s)
  | ' ' :: '+' :: ' ' :: s => some (.attr, s)
  | _ => none

theorem Sep.read_text (sep : Sep) (s : List Char) : Sep.read (sep.text ++ s) = some (sep, s) := by
  cases sep <;> rfl

/-- A text that begins with no separator. -/
theorem Sep.read_cons {c : Char} (hcomma : c ≠ ',') (hspace : c ≠ ' ') (s : List Char) :
    Sep.read (c :: s) = none := by
  unfold Sep.read
  split
  · next heq => exact absurd (List.cons.inj heq).1 hcomma
  · next heq => exact absurd (List.cons.inj heq).1 hspace
  · rfl

theorem Sep.read_space {c : Char} (hplus : c ≠ '+') (s : List Char) :
    Sep.read (' ' :: c :: s) = none := by
  unfold Sep.read
  split
  · next heq => simp at heq
  · next heq => exact absurd (List.cons.inj (List.cons.inj heq).2).1 hplus
  · rfl

theorem Sep.eq_of_read {s t : List Char} {sep : Sep} (h : Sep.read s = some (sep, t)) :
    s = sep.text ++ t := by
  unfold Sep.read at h
  split at h
  · cases h
    rfl
  · cases h
    rfl
  · cases h

namespace AttributeType

def text (ty : AttributeType) : List Char := ty.name.toList ++ ['=']

/-- The type of this name. -/
def ofChars (l : List Char) (ne : l ≠ []) (chars : ∀ c ∈ l, isTypeChar c = true) :
    AttributeType where
  name := String.ofList l
  ne h := ne (by rw [← String.toList_ofList (l := l), h]; rfl)
  chars := by
    rw [String.toList_ofList]
    exact chars

def read (s : List Char) : Option (AttributeType × List Char) :=
  if ne : s.takeWhile isTypeChar ≠ [] then
    match s.dropWhile isTypeChar with
    | '=' :: t => some (ofChars _ ne (List.all_eq_true.1 List.all_takeWhile), t)
    | _ => none
  else none

theorem toList_ne_nil (ty : AttributeType) : ty.name.toList ≠ [] :=
  fun h => ty.ne (String.toList_eq_nil_iff.1 h)

theorem read_text (ty : AttributeType) (s : List Char) : read (ty.text ++ s) = some (ty, s) := by
  have htext : ty.text ++ s = ty.name.toList ++ '=' :: s := by simp [text]
  have htake : (ty.text ++ s).takeWhile isTypeChar = ty.name.toList := by
    rw [htext, List.takeWhile_append_of_pos ty.chars]
    exact List.append_nil _
  have hdrop : (ty.text ++ s).dropWhile isTypeChar = '=' :: s := by
    rw [htext, List.dropWhile_append_of_pos ty.chars]
    rfl
  have ne : (ty.text ++ s).takeWhile isTypeChar ≠ [] := by
    rw [htake]
    exact ty.toList_ne_nil
  have hty : ofChars _ ne (List.all_eq_true.1 List.all_takeWhile) = ty := by
    ext1
    exact (congrArg String.ofList htake).trans String.ofList_toList
  unfold read
  rw [dif_pos ne, hdrop, hty]
  rfl

theorem eq_of_read {s t : List Char} {ty : AttributeType} (h : read s = some (ty, t)) :
    s = ty.text ++ t := by
  unfold read at h
  split at h
  · next ne =>
    split at h
    · next t' hdrop =>
      cases h
      have hs : s.takeWhile isTypeChar ++ '=' :: t = s := by
        rw [← hdrop]
        exact List.takeWhile_append_dropWhile
      simpa [text, ofChars] using hs.symm
    · cases h
  · cases h

theorem text_chars (ty : AttributeType) : ∀ c ∈ ty.text, c ≠ ',' ∧ c ≠ ' ' ∧ c ≠ '+' := by
  intro c hc
  rcases List.mem_append.1 hc with hc | hc
  · have hchar : isTypeChar c = true := ty.chars c hc
    simp only [isTypeChar, Bool.and_eq_true, decide_eq_true_eq] at hchar
    exact ⟨hchar.1.1.2, hchar.1.1.1, hchar.1.2⟩
  · rw [List.mem_singleton.1 hc]
    decide

end AttributeType

/-- What stands in front of a value. -/
def markText (m : Sep × AttributeType) : List Char := m.1.text ++ m.2.text

def readMark (s : List Char) : Option ((Sep × AttributeType) × List Char) :=
  match Sep.read s with
  | none => none
  | some (sep, s) =>
    match AttributeType.read s with
    | none => none
    | some (ty, s) => some ((sep, ty), s)

theorem readMark_of_none {s : List Char} (h : Sep.read s = none) : readMark s = none := by
  rw [readMark, h]

/-- The rest of an attribute type begins with no separator. -/
theorem read_text_rest {ty : AttributeType} {u v : List Char} (h : ty.text = u ++ v) (hv : v ≠ [])
    (s : List Char) : Sep.read (v ++ s) = none := by
  obtain ⟨c, v, rfl⟩ := List.exists_cons_of_ne_nil hv
  have hc : c ∈ ty.text := by simp [h]
  exact Sep.read_cons (ty.text_chars c hc).1 (ty.text_chars c hc).2.1 (v ++ s)

theorem read_space_text (ty : AttributeType) (s : List Char) :
    Sep.read (' ' :: ty.text ++ s) = none := by
  have hne : ty.text ≠ [] := by simp [AttributeType.text]
  obtain ⟨c, v, hcv⟩ := List.exists_cons_of_ne_nil hne
  have hc : c ∈ ty.text := by simp [hcv]
  rw [hcv]
  exact Sep.read_space (ty.text_chars c hc).2.2 (v ++ s)

/-- No mark is read from within another one: it would begin with a comma, or with a space and a
plus. -/
theorem readMark_apart {m : Sep × AttributeType} {u v : List Char} (h : markText m = u ++ v)
    (hu : u ≠ []) (hv : v ≠ []) (s : List Char) : readMark (v ++ s) = none := by
  apply readMark_of_none
  obtain ⟨sep, ty⟩ := m
  cases sep with
  | rdn =>
    match u with
    | [] => exact absurd rfl hu
    | [a] =>
      obtain ⟨-, rfl⟩ : ',' = a ∧ ' ' :: ty.text = v := by simpa [markText, Sep.text] using h
      exact read_space_text ty s
    | a :: b :: u =>
      obtain ⟨-, -, htext⟩ : ',' = a ∧ ' ' = b ∧ ty.text = u ++ v := by
        simpa [markText, Sep.text] using h
      exact read_text_rest htext hv s
  | attr =>
    match u with
    | [] => exact absurd rfl hu
    | [a] =>
      obtain ⟨-, rfl⟩ : ' ' = a ∧ '+' :: ' ' :: ty.text = v := by
        simpa [markText, Sep.text] using h
      exact Sep.read_cons (by decide) (by decide) _
    | [a, b] =>
      obtain ⟨-, -, rfl⟩ : ' ' = a ∧ '+' = b ∧ ' ' :: ty.text = v := by
        simpa [markText, Sep.text] using h
      exact read_space_text ty s
    | a :: b :: c :: u =>
      obtain ⟨-, -, -, htext⟩ : ' ' = a ∧ '+' = b ∧ ' ' = c ∧ ty.text = u ++ v := by
        simpa [markText, Sep.text] using h
      exact read_text_rest htext hv s

/-- The marks of a displayed name. -/
def marks : Marks Char (Sep × AttributeType) where
  text := markText
  read := readMark
  text_ne m := by simp [markText, AttributeType.text]
  read_text m s := by
    rw [markText, List.append_assoc, readMark, Sep.read_text]
    dsimp only
    rw [AttributeType.read_text]
  eq_of_read := by
    intro s m t h
    unfold readMark at h
    split at h
    · cases h
    · next sep s' hsep =>
      split at h
      · cases h
      · next ty t' hty =>
        cases h
        rw [Sep.eq_of_read hsep, AttributeType.eq_of_read hty, markText, List.append_assoc]
  apart h hu hv s := readMark_apart h hu hv s

/-! ## Displayed names -/

/-- The attributes of an RDN, each with what stands in front of it. -/
def Rdn.marked (r : Rdn) : List ((Sep × AttributeType) × List Char) :=
  ((.rdn, r.head.type), r.head.value.toList) ::
    r.tail.map fun a => ((.attr, a.type), a.value.toList)

def X509Name.marked (n : X509Name) : List ((Sep × AttributeType) × List Char) :=
  n.rdns.flatMap Rdn.marked

/-- The attributes of a name, their values cut at every separator that is followed by an attribute
type and an equals sign. -/
def X509Name.pieces (n : X509Name) : List ((Sep × AttributeType) × List Char) :=
  marks.cut n.marked

/-- No value of the name contains what separates two attributes. -/
def X509Name.Unmarked (n : X509Name) : Prop := ∀ p ∈ n.marked, marks.split p.2 = (p.2, [])

theorem intercalate_cons {α : Type} (sep x : List α) (xs : List (List α)) :
    sep.intercalate (x :: xs) = x ++ xs.flatMap fun y => sep ++ y := by
  induction xs generalizing x with
  | nil => simp
  | cons y ys ih =>
    rw [List.intercalate_cons_cons, ih, List.flatMap_cons, List.append_assoc, List.append_assoc]

theorem marks_text (m : Sep × AttributeType) : marks.text m = m.1.text ++ m.2.text := rfl

theorem Attribute.display_toList (a : Attribute) :
    a.display.toList = a.type.text ++ a.value.toList := by
  simp [display, AttributeType.text]

theorem Rdn.display_toList (r : Rdn) : r.display.toList =
    r.head.display.toList ++ r.tail.flatMap fun a => Sep.attr.text ++ a.display.toList := by
  have hsep : " + ".toList = Sep.attr.text := rfl
  rw [display, String.toList_intercalate, hsep, List.map_cons, List.map_cons, intercalate_cons,
    List.flatMap_map, List.flatMap_map]

theorem Rdn.display_ne_nil (r : Rdn) : r.display.toList ≠ [] := by
  simp [r.display_toList, Attribute.display_toList, AttributeType.text]

theorem Rdn.join_marked (r : Rdn) :
    marks.join r.marked = Sep.rdn.text ++ r.display.toList := by
  have htail : ∀ l : List Attribute,
      marks.join (l.map fun a => ((.attr, a.type), a.value.toList)) =
        l.flatMap fun a => Sep.attr.text ++ a.display.toList := by
    intro l
    simp [Marks.join, List.flatMap_map, Attribute.display_toList, marks_text]
  rw [marked, Marks.join_cons, htail, Rdn.display_toList, Attribute.display_toList, marks_text]
  simp only [List.append_assoc]

/-- A name that is not empty is displayed behind the separator of its first RDN. -/
theorem X509Name.join_marked {n : X509Name} {r : Rdn} {rs : List Rdn} (h : n.rdns = r :: rs) :
    marks.join n.marked = Sep.rdn.text ++ n.display.toList ∧ n.display.toList ≠ [] := by
  have hsep : ", ".toList = Sep.rdn.text := rfl
  have hdisplay : n.display.toList =
      r.display.toList ++ rs.flatMap fun r => Sep.rdn.text ++ r.display.toList := by
    rw [display, String.toList_intercalate, hsep, h, List.map_cons, List.map_cons,
      intercalate_cons, List.flatMap_map, List.flatMap_map]
  have hjoin : marks.join n.marked =
      n.rdns.flatMap fun r => Sep.rdn.text ++ r.display.toList := by
    rw [marked, Marks.join, List.flatMap_assoc]
    exact congrArg (List.flatMap · n.rdns) (funext Rdn.join_marked)
  rw [hjoin, hdisplay, h, List.flatMap_cons, List.append_assoc]
  exact ⟨rfl, fun hnil => r.display_ne_nil (List.append_eq_nil_iff.1 hnil).1⟩

/-- Two names are displayed the same exactly if they fall into the same pieces. -/
theorem X509Name.display_eq_iff (n n' : X509Name) :
    n.display = n'.display ↔ n.pieces = n'.pieces := by
  have hempty : ∀ n : X509Name, n.rdns = [] → marks.join n.marked = [] ∧ n.display.toList = [] := by
    intro n h
    rw [marked, display, h]
    exact ⟨rfl, rfl⟩
  rw [pieces, pieces, ← marks.join_eq_iff, ← String.toList_inj]
  cases h : n.rdns with
  | nil =>
    obtain ⟨hj, hd⟩ := hempty n h
    cases h' : n'.rdns with
    | nil =>
      obtain ⟨hj', hd'⟩ := hempty n' h'
      rw [hj, hj', hd, hd']
    | cons r rs =>
      obtain ⟨hj', hd'⟩ := join_marked h'
      rw [hj, hj', hd]
      exact iff_of_false (Ne.symm hd') (by simp [Sep.text])
  | cons r rs =>
    obtain ⟨hj, hd⟩ := join_marked h
    cases h' : n'.rdns with
    | nil =>
      obtain ⟨hj', hd'⟩ := hempty n' h'
      rw [hj, hj', hd']
      exact iff_of_false hd (by simp [Sep.text])
    | cons r' rs' =>
      obtain ⟨hj', -⟩ := join_marked h'
      rw [hj, hj']
      exact (List.append_right_inj _).symm

/-! The marked attributes are the name, in another form. -/

/-- The attributes of an RDN end where the next RDN begins. -/
theorem attrs_inj {l l' : List Attribute} {rs rs' : List Rdn}
    (h : (l.map fun a => ((Sep.attr, a.type), a.value.toList)) ++ rs.flatMap Rdn.marked =
      (l'.map fun a => ((Sep.attr, a.type), a.value.toList)) ++ rs'.flatMap Rdn.marked) :
    l = l' ∧ rs.flatMap Rdn.marked = rs'.flatMap Rdn.marked := by
  induction l generalizing l' with
  | nil =>
    cases l' with
    | nil => exact ⟨rfl, h⟩
    | cons a' l' => cases rs <;> simp [Rdn.marked] at h
  | cons a l ih =>
    cases l' with
    | nil => cases rs' <;> simp [Rdn.marked] at h
    | cons a' l' =>
      obtain ⟨⟨hty, hv⟩, hrest⟩ : (a.type = a'.type ∧ a.value = a'.value) ∧ _ := by
        simpa [String.toList_inj] using h
      obtain ⟨rfl, hrs⟩ := ih hrest
      cases a
      cases a'
      obtain rfl := hty
      obtain rfl := hv
      exact ⟨rfl, hrs⟩

theorem rdns_inj : ∀ {rs rs' : List Rdn},
    rs.flatMap Rdn.marked = rs'.flatMap Rdn.marked → rs = rs' := by
  intro rs
  induction rs with
  | nil =>
    intro rs' h
    cases rs' with
    | nil => rfl
    | cons r' rs' => simp [Rdn.marked] at h
  | cons r rs ih =>
    intro rs' h
    cases rs' with
    | nil => simp [Rdn.marked] at h
    | cons r' rs' =>
      rw [List.flatMap_cons, List.flatMap_cons, Rdn.marked, Rdn.marked, List.cons_append,
        List.cons_append, List.cons.injEq] at h
      obtain ⟨hhead, hrest⟩ := h
      obtain ⟨htail, hrs⟩ := attrs_inj hrest
      obtain ⟨hty, hv⟩ : r.head.type = r'.head.type ∧ r.head.value = r'.head.value := by
        simpa [String.toList_inj] using hhead
      obtain ⟨⟨ty, v⟩, tail⟩ := r
      obtain ⟨⟨ty', v'⟩, tail'⟩ := r'
      obtain rfl : ty = ty' := hty
      obtain rfl : v = v' := hv
      obtain rfl : tail = tail' := htail
      rw [ih hrs]

theorem X509Name.marked_inj {n n' : X509Name} (h : n.marked = n'.marked) : n = n' := by
  cases n
  cases n'
  exact congrArg X509Name.mk (rdns_inj h)

/-! ## Jobs of others -/

namespace Coord

/-- Whatever happens, `v` finds no job that `u` has started. -/
def Hidden (u v : User) : Prop :=
  ∀ acts s j, run step init acts = some s → Started acts u j →
    s.getTracker v j = .error (.jobNotFound j)

/-- The first job of a user. -/
def firstJob (u : User) : List Act := [.spawn 0 u "sleep" (.ok ⟨⟨"job"⟩, ⟨7⟩, ⟨1⟩⟩), .insert 0]

theorem firstJob_found (u : User) : ∃ s t, run step init (firstJob u) = some s ∧
    Started (firstJob u) u ⟨"job"⟩ ∧ s.getTracker u ⟨"job"⟩ = .ok t := by
  refine ⟨_, _, rfl, ?_, getTracker_ok.2 ⟨rfl, rfl, rfl⟩⟩
  exact ⟨0, "sleep", ⟨⟨"job"⟩, ⟨7⟩, ⟨1⟩⟩, List.mem_cons_self, rfl, rfl⟩

/-- It is the user that decides. -/
theorem hidden_iff {u v : User} : Hidden u v ↔ u ≠ v := by
  constructor
  · rintro h rfl
    obtain ⟨s, t, hr, hst, hok⟩ := firstJob_found u
    rw [h _ s _ hr hst] at hok
    cases hok
  · intro hne acts s j hr hst
    cases hg : s.getTracker v j with
    | error err => rw [getTracker_error hg]
    | ok t =>
      obtain ⟨ht, -, hv⟩ := getTracker_ok.1 hg
      obtain ⟨t', ht', hu⟩ := (Entries.run hr).started u j hst
      obtain rfl : t = t' := Option.some.inj (ht.symm.trans ht')
      exact absurd (hu.symm.trans hv) hne

end Coord

/-- The two users are told apart. -/
structure Separated (u v : User) : Prop where
  ids : u.id ≠ v.id
  hidden : Coord.Hidden u v
  hidden' : Coord.Hidden v u

theorem separated_iff_ne {u v : User} : Separated u v ↔ u.id ≠ v.id := by
  have hid : u.id ≠ v.id ↔ u ≠ v := by
    cases u
    cases v
    simp
  refine ⟨Separated.ids, fun h => ⟨h, ?_, ?_⟩⟩
  · exact Coord.hidden_iff.2 (hid.1 h)
  · exact Coord.hidden_iff.2 (hid.1 h).symm

/-! ## Certificates -/

section Certificates

variable {CertificateDer : Type} {x509 : X509Parser CertificateDer}

/-- `extract_client_cert` accepts the certificate, whose subject is `n`, and gives the request of
its client the context `ctx`. -/
structure Accepted (x509 : X509Parser CertificateDer) (cert : CertificateDer) (n : X509Name)
    (ctx : Ctx) : Prop where
  subject : x509.subject cert = .ok n
  extracted : ∃ req, req.peerCerts = some [cert] ∧ extractClientCert x509 req = .ok (req.setCtx ctx)

theorem tryFrom_ok {cert : CertificateDer} {ctx : Ctx} : Ctx.tryFrom x509 cert = .ok ctx ↔
    ∃ n, x509.subject cert = .ok n ∧ ctx = { user := { id := x509.toString n } } := by
  unfold Ctx.tryFrom
  split
  · next err hn => simp [hn]
  · next n hn => simp [hn, eq_comm]

theorem extractClientCert_ok {req req' : Request CertificateDer} :
    extractClientCert x509 req = .ok req' ↔
      ∃ cert ctx, req.peerCerts = some [cert] ∧ Ctx.tryFrom x509 cert = .ok ctx ∧
        req' = req.setCtx ctx := by
  unfold extractClientCert
  split
  · next hnone => simp [hnone]
  · next cert hone =>
    cases hctx : Ctx.tryFrom x509 cert with
    | error st => simp [hone, hctx, Except.map]
    | ok ctx => simp [hone, hctx, Except.map, eq_comm]
  · next certs hmany hcerts =>
    refine iff_of_false nofun ?_
    rintro ⟨cert, ctx, hone, -⟩
    exact hmany cert (Option.some.inj (hcerts.symm.trans hone))

/-- Without one certificate that parses, the client is unauthenticated. -/
theorem extractClientCert_error {req : Request CertificateDer} {st : Status}
    (h : extractClientCert x509 req = .error st) : st.code = .unauthenticated := by
  unfold extractClientCert at h
  split at h
  · cases h
    rfl
  · next cert hone =>
    unfold Ctx.tryFrom at h
    split at h
    · cases h
      rfl
    · cases h
  · cases h
    rfl

theorem Accepted.id_eq {cert : CertificateDer} {n : X509Name} {ctx : Ctx}
    (h : Accepted x509 cert n ctx) : ctx.user.id = x509.toString n := by
  obtain ⟨req, hone, hreq⟩ := h.extracted
  obtain ⟨cert', ctx', hone', htry, hset⟩ := extractClientCert_ok.1 hreq
  obtain ⟨n', hn', rfl⟩ := tryFrom_ok.1 htry
  obtain rfl : cert = cert' := by simpa [hone] using hone'
  obtain rfl : n = n' := Except.ok.inj (h.subject.symm.trans hn')
  obtain rfl : ctx = { user := { id := x509.toString n } } := by
    simpa [Request.setCtx] using congrArg Request.ctx hset
  rfl

/-- The context of a request behind the interceptor is that of its one certificate. -/
theorem serverInterceptor_ok {req req' : Request CertificateDer}
    (h : serverInterceptor x509 req = .ok req') :
    ∃ cert n ctx, req.peerCerts = some [cert] ∧ Accepted x509 cert n ctx ∧
      req'.getCtx = .ok ctx := by
  have hreq : extractClientCert x509 req = .ok req' := by
    simpa [serverInterceptor] using h
  obtain ⟨cert, ctx, hone, htry, rfl⟩ := extractClientCert_ok.1 hreq
  obtain ⟨n, hn, -⟩ := tryFrom_ok.1 htry
  exact ⟨cert, n, ctx, hone, ⟨hn, req, hone, hreq⟩, rfl⟩

/-- **Subjects and users.** If `x509_parser` displays names without escaping, two accepted
certificates stand for users with different ids, neither of whom ever finds a job of the other,
exactly if the names of their subjects fall into different pieces. -/
theorem separated_iff (hdisplay : ∀ n, x509.toString n = n.display) {cert cert' : CertificateDer}
    {n n' : X509Name} {ctx ctx' : Ctx} (h : Accepted x509 cert n ctx)
    (h' : Accepted x509 cert' n' ctx') :
    Separated ctx.user ctx'.user ↔ n.pieces ≠ n'.pieces := by
  rw [separated_iff_ne, h.id_eq, h'.id_eq, hdisplay, hdisplay, Ne, X509Name.display_eq_iff]

/-- Of names that contain no separator in a value, different ones are told apart. -/
theorem separated_of_unmarked (hdisplay : ∀ n, x509.toString n = n.display)
    {cert cert' : CertificateDer} {n n' : X509Name} {ctx ctx' : Ctx}
    (h : Accepted x509 cert n ctx) (h' : Accepted x509 cert' n' ctx') (hn : n.Unmarked)
    (hn' : n'.Unmarked) (hne : n ≠ n') : Separated ctx.user ctx'.user := by
  rw [separated_iff_ne, h.id_eq, h'.id_eq, hdisplay, hdisplay, Ne, X509Name.display_eq_iff,
    X509Name.pieces, X509Name.pieces, marks.cut_eq_self hn, marks.cut_eq_self hn']
  exact fun hmarked => hne (X509Name.marked_inj hmarked)

end Certificates

section Names

/-- A parser whose certificates are the names, and that escapes nothing. -/
def unescaped : X509Parser X509Name := { subject := .ok, toString := X509Name.display }

theorem accepted_unescaped (n : X509Name) :
    Accepted unescaped n n { user := { id := n.display } } :=
  ⟨rfl, { peerCerts := some [n], ctx := none }, rfl, rfl⟩

def commonName : AttributeType := ⟨"CN", by decide, List.all_eq_true.1 rfl⟩
def organization : AttributeType := ⟨"O", by decide, List.all_eq_true.1 rfl⟩

def alice : X509Name := ⟨[⟨⟨commonName, "alice"⟩, []⟩]⟩
def bob : X509Name := ⟨[⟨⟨commonName, "bob"⟩, []⟩]⟩

theorem separated_iff_alice_bob :
    Separated { id := alice.display } { id := bob.display } :=
  (separated_iff (fun _ => rfl) (accepted_unescaped alice) (accepted_unescaped bob)).2 (by decide)

/-- `CN=alice, O=acme`, with alice at acme and with a common name that looks like it. -/
def aliceAcme : X509Name :=
  ⟨[⟨⟨commonName, "alice"⟩, []⟩, ⟨⟨organization, "acme"⟩, []⟩]⟩
def mallory : X509Name := ⟨[⟨⟨commonName, "alice, O=acme"⟩, []⟩]⟩

theorem not_separated_mallory : ∃ ctx ctx', Accepted unescaped aliceAcme aliceAcme ctx ∧
    Accepted unescaped mallory mallory ctx' ∧ aliceAcme ≠ mallory ∧
    ctx.user.id = ctx'.user.id ∧ ¬Coord.Hidden ctx.user ctx'.user := by
  have hsame : aliceAcme.display = mallory.display := by decide
  refine ⟨_, _, accepted_unescaped aliceAcme, accepted_unescaped mallory, by decide, hsame, ?_⟩
  rw [Coord.hidden_iff, hsame]
  exact fun h => h rfl

end Names

end JobRunner
