import RpiHalEmbassy.TimeDriver.BeforeInit
import RpiHalEmbassy.TimeDriver.Rearm
import RpiHalEmbassy.Executor.WakeUps
import RpiHalEmbassy.Executor.Idling
import RpiHalEmbassy.Board.Deadlines
import RpiHalEmbassy.Wifi.Failing
import RpiHalEmbassy.Wifi.Backpressure
import RpiHalEmbassy.Wifi.Rejoining
import RpiHalEmbassy.Wifi.Recovery
import RpiHalEmbassy.Wifi.Rate
import RpiHalEmbassy.Wifi.Stats
import RpiHalEmbassy.Wifi.Draining
import RpiHalEmbassy.Wifi.Answering
import RpiHalEmbassy.Ethernet.BringUp
import RpiHalEmbassy.Ethernet.Truncation
import RpiHalEmbassy.Ethernet.RxStats
import RpiHalEmbassy.Ethernet.TxStats
import RpiHalEmbassy.Ethernet.Progress
