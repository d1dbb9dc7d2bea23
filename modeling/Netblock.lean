import Netblock.CommandLine.Run
import Netblock.Forest.Children
import Netblock.Interval.Format
import Netblock.Main
import Netblock.Proofs.History
import Netblock.Proofs.MoreSpecific
import Netblock.Proofs.LessSpecific
import Netblock.Proofs.Outermost
import Netblock.Proofs.Canonical
import Netblock.Proofs.Refusals
import Netblock.Proofs.Independence
import Netblock.Proofs.Keeping
import Netblock.Proofs.Loading
import Netblock.Proofs.AddressText
import Netblock.Proofs.BlockText
import Netblock.Proofs.Dumping
import Netblock.Proofs.RoundTrip
import Netblock.Proofs.Skipping
import Netblock.Proofs.BlockLine
import Netblock.Proofs.AddressGrammar
import Netblock.Proofs.Reading
import Netblock.Proofs.Matching
import Netblock.Proofs.Answering
import Netblock.Proofs.Below
import Netblock.Proofs.Emptied
import Netblock.Proofs.Offsets
import Netblock.Proofs.Layout
import Netblock.Proofs.Calls
import Netblock.Proofs.Tracing
import Netblock.Proofs.Accounting
import Netblock.Proofs.Walking
