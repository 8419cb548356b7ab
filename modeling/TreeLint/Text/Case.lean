import TreeLint.Text.CodeClass

/-!
# Upper and lower case

Case maps of Unicode 14. A simple map sends one code point to one code point and is stored as runs
`(first, last, step, image)`: the code points `first, first + step, ..., last` go to `image, image + step, ...` in this
order. Full maps may give several code points, and the lower case of a capital sigma depends on its neighbours.
-/

namespace TreeLint

def imageIn (runs : List (Nat × Nat × Nat × Nat)) (code : Nat) : Option Nat :=
  (runs.find? fun (first, last, step, _) => first ≤ code && code ≤ last && (code - first) % step == 0).map
    fun (first, _, _, image) => code - first + image

/-- The runs with the given steps after a code point: how far each run begins after the beginning of the one before, how
many code points it has besides its first, its own step and its image. -/
def runsFrom (code : Nat) : List Nat → List (Nat × Nat × Nat × Nat)
  | gap :: more :: step :: image :: steps =>
    (code + gap, code + gap + more * step, step, image) :: runsFrom (code + gap) steps
  | _ => []

def lowerRuns : List (Nat × Nat × Nat × Nat) :=
  runsFrom 0 <| unpack
    [0x126A9911209E1014A9910438E2113A9910092FD2217FB106D39D26A1A2FC2773EC2221D9100E18C27A0D0FB160B0CB16A7F91C911B189,
     0x11020DE10108A91061CE2215E991022E991017D991041BE1010D991011D991023C991010C991022AE1013B991011B991015BF10349E10,
     0x13EF103A7BF2093A49F209149F10219F10119F10268F10168F10095FE1041FE1012AA91044EE21229A91120EE10109A91025DE10338A9,
     0x112DC789924149A910119A910108E10228991036C9EA1012BE1024F891015C9EA100B3C8920926BE100D1FF23A17FE1015AE1043EF211,
     0x11012EF91020FF91030FE9104B1BF9239197AF9104D38F91092A1EE910A359F911249F91045DE91224DE91073EF910197ED91061ED92,
     0x11067CCEA107C08CEA15C7DDD1CDA15C1C91ABA27D7928BA26179BA106E39AA22B2D1C9A20A0A90E8A17B0A0A9A17933FD91233FF9,
     0x10CCF9170A0ACF9150A08CF9170D91CAF927D27BB106BA188F9229938D5FB89125D0AB8912D0CAC0FF99150A90EDDA917993AB95DCEA,
     0x114938FF91042EDF913493EEF91020EDF91120EEF9110A0CEF9170A0AEF9170A08EF9170C0CDF917791ADF9231A08DF9150A0ECF9170A,
     0x1103C0ED8A1796D69D8A1075CB1013D910419F9102DC3EFF91024FDF91120FDF911495CFF91022FDF91120CFF911696EDF91120AFF91,
     0x11033E9EA1022A991010A991011E991011A991060D9EA2235F991015FDE91013D991021C9EA100C90E8EA17D29DB0ABAA11B3EC948E8A,
     0x111FDE91042FDBA9217893ECBA926B0A3CCBA9262CA18ABA9259089189BA926A69DCF3EBEA1074DBEA213D918AEA21E27F8911196E9EA,
     0x11015BA910178A91016BA91022D991014D991011C991014B991016C99104A7AEBA921961AEBA92135C9910249EBA910597FDBA924,
     0x10EA0D8A8A17C7BBA18DFF911B4DCBD6EFBA9107B7AFBA92161AFBA9101909FBA921169EE910128A91014AEBA9100A5EEBA92713ADDA9,
     0x12CCCEB11C08BDF0C9FEA17B0CEAD08BC9A17B0C8E08BE8A12E4DBB3FEA8A11093EEA8A160A3CEA8A169497AEA8A12908B0BBA8A13C]

def upperRuns : List (Nat × Nat × Nat × Nat) :=
  runsFrom 0 <| unpack
    [0x110478E10528E21338991013A91051FD227D29D26A1A1FC2772EC222199100E08C27A20FD1070BB160B08B16A3D4BE9104A918911B1C9,
     0x1278F10178F10248F10148F1067EF1024FE1040FE1053EE2147DE1034DE1057CE1070CE2230C891045F891010BE1046EF1031AE10639E,
     0x11017D9EA1019689924518991036F9EA1133F89101B2C892092D0FF23A44EF1021EF1011EF103A6BF209269E107959F27229F10129F10,
     0x11016AE1017AE1022DEBA910159EBA91024AE1024DEBA91013AE1043DEBA91010AE10279E10319E11268E10118E1010E9EA1015D9EA,
     0x121EE11148991016DE1011EEBA91041DE10158FBA91026CE1034C9EA10097BE1035BE1016D9EA1024BE1035DEBA91012C9EA1016DEBA9,
     0x110193CE910913CE9101A1AE910A409E912168E9101E5FF91246ED91060ED9214D1BE9107CA0EEBA91012EEBA910397EE106589910,
     0x17B5E2FF91037EF91035AE91027FD91011FF91011CE91012BE9107A0BF9239279F91010CE91016CE91040BE91012AE910369E911149E9,
     0x12A8A1009AC0EF99153FB95FAE9125D0AAE912D7DDD1ECA15C0AA0ABA27D208BA105918BA267E29AA22B2D0C9A20A1A088A1790C0A8A1,
     0x127D60C9F9102BA088F922993E968FBA9101A3C9EA1045FDBA9101EB299BA91012C9A1012D8A1012C8A1021C8A1116B8A1014A8A101,
     0x11120FFF91122BFF911409FF91322FEF9110A0DDF917791BDF9231A09DF9150A0FCF9170A0DCF9170A0BCF9150A09CF9177B90CAF9,
     0x117D0CDB6EAAA11B49D938E8A104A0CD8A1792C2EC8A101DD4DFF91050DFF9110A0BFF9112A1BE910690FEF9114E2FFF91122DFF9,
     0x159B8910678B89107C0CA8915C592EBEA1073DBEA213D908AEA21E395E9EA1032E9EA10397C9EA2226F891012F891040C9EA101E088EA,
     0x16B6AEBA9219348FBA91030AEBA921539EBA910596FDBA92451FDBA9217892ECBA926B0A2CCBA9262CA08ABA9259089089BA926A4ACCF,
     0x113C0EA088A8A17C7CBA1CCFF911B1AF9D0CE9917995B3EEBA9105BD95EFBA9107B6AFBA92160AFBA9101978FBA9213A4EEBA927,
     0x108CCEB11C28BDF089FEA17B0CEAD0CAC9A17B088E08AE8A12E58CB4AEA8A110949EA8A160A4FDA8A169490EDA8A1297FA0EAA8A]

/-- Greek letters with an iota below, sixteen to a vowel. -/
def iotaExpansions : List (Nat × List Nat) :=
  [(8064, 7944), (8080, 7976), (8096, 8040)].flatMap fun (first, image) =>
    (List.range 16).map fun n => (first + n, [image + n % 8, 921])

def upperExpansions : List (Nat × List Nat) :=
  iotaExpansions ++
  [(223, [83, 83]), (329, [700, 78]), (496, [74, 780]), (912, [921, 776, 769]), (944, [933, 776, 769]),
   (1415, [1333, 1362]), (7830, [72, 817]), (7831, [84, 776]), (7832, [87, 778]), (7833, [89, 778]),
   (7834, [65, 702]), (8016, [933, 787]), (8018, [933, 787, 768]), (8020, [933, 787, 769]), (8022, [933, 787, 834]),
   (8114, [8122, 921]), (8115, [913, 921]), (8116, [902, 921]), (8118, [913, 834]), (8119, [913, 834, 921]),
   (8124, [913, 921]), (8130, [8138, 921]), (8131, [919, 921]), (8132, [905, 921]), (8134, [919, 834]),
   (8135, [919, 834, 921]), (8140, [919, 921]), (8146, [921, 776, 768]), (8147, [921, 776, 769]),
   (8150, [921, 834]), (8151, [921, 776, 834]), (8162, [933, 776, 768]), (8163, [933, 776, 769]),
   (8164, [929, 787]), (8166, [933, 834]), (8167, [933, 776, 834]), (8178, [8186, 921]), (8179, [937, 921]),
   (8180, [911, 921]), (8182, [937, 834]), (8183, [937, 834, 921]), (8188, [937, 921]), (64256, [70, 70]),
   (64257, [70, 73]), (64258, [70, 76]), (64259, [70, 70, 73]), (64260, [70, 70, 76]), (64261, [83, 84]),
   (64262, [83, 84]), (64275, [1348, 1350]), (64276, [1348, 1333]), (64277, [1348, 1339]), (64278, [1358, 1350]),
   (64279, [1348, 1341])]

def casedRanges : List (Nat × Nat) :=
  rangesFrom 0 <| unpack
    [0x12D090938AC535A91CA9232D306025C0BCD0D295C25CA1929A22A923A2022207022413318B2B279B53228B26B26A60503900E1B71B189,
     0x17ACB3E2EC9147B2A054633055232020207440219305068C62264955334622402624E36B202020273535C3535AC6C91C2490893D18923,
     0x12295E93C53C1C97996CAA1B71B298A459618DFC799090962D6EC90414B4202162F2346A259978A3B3A5D3ACCF06025C5914376C933F9,
     0x126B20B26B20B20B33AD2640242323B2627332089262023923313031268924A918EAE7F1CDAD7F6DED2E692E48BB1262692292126269,
     0x11B71B71B5DFB3892CFC3A2195ECB720B26B20B26B20B]

/-- Case-ignorable code points: marks, modifiers and some punctuation. -/
def caseIgnorableRanges : List (Nat × Nat) :=
  rangesFrom 0 <| unpack
    [0x1294B92B7B0202C3219276C901A4A3904C02293954905D021212024D2E0600AB64FB0212905157FA0FF1305020500990204C0490707C,
     0x119320303F0257A15A05124502F1490417B0423151502F1303B15A0193503F00A0691396405750200F1F2D7710905D24D7A1B0305293F,
     0x10204B13995202909303C909496303B902209019906B15A0193512F15B15A16070303F06B14910932262200F0403E05906F07B1491090,
     0x10291527E903C128904E46D060429301962118917B17B16B23EE921C9907B900A071306931A2512B13125237C90293C22961242590F02,
     0x12206FE4C93C0696F3E1407056249223A951891373F22041201F221331C159091D06024201E32E6B1900D031977302026203F0314BB27,
     0x1233C9079C53CBA07ACFE26B956B9064435C06AF00E7B1C900A06F922E9149ED0C4E491A0690219242E4303039119459169269269249,
     0x104B0216132204E04904C0190591313538916A02A133301E27D292B77C0691A3B10BA0612B05040191420D920B07991C7911A935B0219,
     0x178990921D25688A46AA03CB0288926A048916D00E0204C0490700902DA0303C795904796F890A4AA01ECFC050302F922945C90216179,
     0x16C0412F16A7401CA07120320C903339095E15907F7245C23E03905031332E2391302D697E04F932E292BA148E36F8916CA0521D36122,
     0x112497D235290193351D191C051331AA0502118C120948C423326C902530203D9120376A914B121737DB12150255A900B0223748B446,
     0x16A35D5B9993217BAE126234988C1211890A0890498A32964F40FABB094FCA914BD020411990262120453F91212635A3A9025267AE,
     0x17DB18A7B97B0288E88B40EAD76D961CFA36F01ED5968C4212630A261ADA69247A0790191E56E4FEB25AA37B63792921C89]

def sameLetterClasses : List (List Nat) :=
  [[105, 305], [115, 383], [181, 956], [837, 953, 8126], [912, 8147], [944, 8163], [946, 976], [949, 1013],
   [952, 977], [954, 1008], [960, 982], [961, 1009], [962, 963], [966, 981], [1074, 7296], [1076, 7297],
   [1086, 7298], [1089, 7299], [1090, 7300, 7301], [1098, 7302], [1123, 7303], [7304, 42571], [7777, 7835],
   [64261, 64262]]

def simpleLower (code : Nat) : Nat :=
  if code < 128 then (if 65 ≤ code && code ≤ 90 then code + 32 else code) else (imageIn lowerRuns code).getD code

def sameLetter (code : Nat) : List Nat :=
  ((sameLetterClasses.find? (·.contains code)).getD []).erase code

def lowerPreimages (code : Nat) : List Nat :=
  let moved := lowerRuns.filterMap fun (first, _, _, image) =>
    let source := code + first - image
    if image ≤ code + first && imageIn lowerRuns source == some code then some source else none
  if simpleLower code == code then code :: moved.eraseDups else moved.eraseDups

def upperOf (code : Nat) : List Nat :=
  match upperExpansions.lookup code with
  | some codes => codes
  | none => [(imageIn upperRuns code).getD code]

def simpleUpper (code : Nat) : Nat :=
  (upperOf code).headD code

def upperCase (codes : List Nat) : List Nat :=
  codes.flatMap upperOf

def startsCased (codes : List Nat) : Bool :=
  match codes.dropWhile (inRanges caseIgnorableRanges) with
  | [] => false
  | code :: _ => inRanges casedRanges code

/-- The lower case of a text whose reversed `before` has been read: a capital sigma becomes a final one when a
cased letter stands before it and none after it. -/
def lowerCaseFrom (before : List Nat) : List Nat → List Nat
  | [] => []
  | code :: after =>
    let lowered :=
      if code == 931 then
        if startsCased before && !startsCased after then [962] else [963]
      else if code == 304 then [105, 775]
      else [simpleLower code]
    lowered ++ lowerCaseFrom (code :: before) after

def lowerCase (codes : List Nat) : List Nat :=
  lowerCaseFrom [] codes

end TreeLint
