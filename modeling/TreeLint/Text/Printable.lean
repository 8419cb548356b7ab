import TreeLint.Text.CodeClass

/-!
# Printable code points

A code point is printable when it is a letter, mark, number, punctuation mark or symbol of Unicode 14, or
the plain space. Controls, format characters, other separators, surrogates, private use and unassigned
code points are not: quoted text shows them by number.
-/

namespace TreeLint

def printableRanges : List (Nat × Nat) :=
  rangesFrom 0 <| unpack
    [0x10933402625A313720CA2199296B6292033B26930E32F794C932F37D27FA25A2A552B196E2231E35C249E23A202655319B92393C6B90C,
     0x123130934212625A313722260939330A0322221934212625A2220922390A09023090423154203121212625A31552230B342150193313,
     0x1219332171093222093421926A2225A0919333032210932220937926A2224964A79070332244539424141202143224521391A34215209,
     0x10258B6C4926923C26C53C27891C331935202436A2027A2420216C4B51F59231977202550463020927A41A2221B379552222E22249691,
     0x10B972925971971935B959122249593A297A295A090B943B27F993535A971B47B32893320F2693320263320C3320D3320263320FD306,
     0x1020273535C3535A8962D192932D093F46943F193E926D44992E6B35971972934B208935F42971B53D49431D4053953926B3958962D09,
     0x126262626262626297A791097E306024D64BD27B33ACB6A292B6AA9539A0A0C0A0C44922B312A6D197A2A092232A2535926924E36B202,
     0x145B493E973919589197E71942F1B42021629B197EA5A3BD296E44D99F26D593A925B922D66C935A926F6393B5AB590B921B3C5F926,
     0x11C0095E34FE1A4F92121202421B645967C1D935DD58C8A0E56A593CEDA71935F953F26262953535393B1B6C9319359296E20C5292599,
     0x13D5954C25B62D65B293C53B0A0E44B38A5D0E044927A944D5262F93C593692122A21B23931696264235353545FA568A245322A22E71D,
     0x13A57E189062B40C6122A1E091978926A304123D20356890921D251B7395A296EC4891262692292126269239493E197C53C53C71935BA,
     0x1296A5A3B7C1B7A1D197C79913221D26B7CC19195D092E692E0F0991A96593091B62B34B45E293956C1C7F090909195234B22276121E3,
     0x17B423B949A446366070323131924212625A31372371962F7292692320262893D21A493A27B9296C191A24E719090B69425F293C5599,
     0x120909C099692A9197894B2935D377891929393125B21273037592A95C93F2FA6A56932B7E1971F4A49719494893C5C35E7CA1919789,
     0x168992AFF6D8A692C9599D38B49426D97C92BE9691E0A00FA0B7EC190952124C21257191909212043D21262995925A37B44B395924D,
     0x12A26D2CC2126230DB9A093D5ABA197EFB97914941890A090F52996C92B91EA92A64A262193958939535B71920A951926B090F892FE8A,
     0x132089262023923313031268924A909A0B296A9593A3BA5896A7D91919936C395EB5F3E9296A35D1C9993319090944962D958CC39E193,
     0x1151953992D79348B2692123261CBA061F2A6B18D151935944D6AB4212630A262CB6B1A9A69240A5FA933CC33AD2640242323B26273,
     0x1269269369593C953D79C15E0A242260A2192023232623302120202020203021222020205070202321920302122B2338B4F5993892AC9,
     0x129619771939562944B2964444359593AD799135B197C719197E5390A0539090B9593E944947967AF93BA5791090953D694B1F5DA394C,
     0x17DB6EEEEDA29D993CFA5B890C8E0ECE97918AB935BB090F8891C7BBBA9788A196C6E22AA]

def isPrintable (code : Nat) : Bool :=
  inRanges printableRanges code

end TreeLint
